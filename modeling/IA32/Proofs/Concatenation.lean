import IA32.Proofs.Tiling

set_option autoImplicit false

namespace IA32.Decoder

variable {decoder : Decoder} {image word : List UInt8} {start stop : Nat}
  {base origin : Option UInt64} {instruction alone : Instruction} {instructions : List Instruction}

/-- The encoding of an instruction gives the instruction again between any other bytes. -/
theorem decode_between (h : decoder.decode image start origin = .ok alone)
    (front rest : List UInt8) (base : Option UInt64) :
    ∃ found, decoder.decode (front ++ (alone.encoding ++ rest)) front.length base = .ok found ∧
      found.encoding = alone.encoding ∧ found.unplaced = alone.unplaced := by
  obtain ⟨reading, hread, hsize, hlimit, -, hunplaced⟩ := readCode_encoding h
  have hdrop : (front ++ (alone.encoding ++ rest)).drop front.length = alone.encoding ++ rest :=
    List.drop_left
  have hmore : decoder.readCode ((front ++ (alone.encoding ++ rest)).drop front.length) =
      .ok reading := by
    rw [hdrop]
    exact readCode_append_of_ok hread rest
  have htake : (alone.encoding ++ rest).take reading.size = alone.encoding := by
    rw [hsize, Instruction.size, List.take_left]
  refine ⟨_, decode_eq_ok_iff.mpr ⟨reading, hmore, hlimit, rfl⟩, ?_, ?_⟩
  · rw [hdrop]
    exact htake
  · rw [reading.unplaced_instruction, hdrop, htake, hunplaced]

theorem encoding_eq_of_size (h : decoder.decode word 0 origin = .ok alone)
    (hsize : alone.size = word.length) : alone.encoding = word := by
  rw [encoding_of_decode h, List.drop_zero, hsize, List.take_length]

theorem lengthAt_eq_ok_iff {size : Nat} :
    decoder.lengthAt image start = .ok size ↔
      ∃ found, decoder.decode image start none = .ok found ∧ found.size = size := map_eq_ok_iff

theorem boundaries_eq_match (decoder : Decoder) (image : List UInt8) (start : Nat) :
    decoder.boundaries image start =
      if start = image.length then .ok []
      else match decoder.decode image start none with
        | .ok instruction =>
          (decoder.boundaries image instruction.nextOffset).map (instruction.offset :: ·)
        | .error error => .error error := by
  rw [boundaries]
  split
  · rfl
  · split
    · next hok => rw [hok]
    · next herror => rw [herror]

theorem boundaries_of_ok (h : decoder.decode image start none = .ok instruction) :
    decoder.boundaries image start =
      (decoder.boundaries image instruction.nextOffset).map (instruction.offset :: ·) := by
  rw [boundaries_eq_match, if_neg (ne_length_of_decode h), h]

theorem boundaries_length (decoder : Decoder) (image : List UInt8) :
    decoder.boundaries image image.length = .ok [] := by
  rw [boundaries, if_pos rfl]

namespace Tiling

/-- The boundaries from the start of a tiling go on where the tiling ends. -/
theorem boundaries_eq (h : decoder.Tiling image none start instructions stop) :
    decoder.boundaries image start =
      (decoder.boundaries image stop).map (instructions.map Instruction.offset ++ ·) := by
  induction h with
  | nil offset =>
    cases decoder.boundaries image offset with
    | error failure => rfl
    | ok offsets => rfl
  | @cons offset stop instruction instructions hdecode _ ih =>
    rw [boundaries_of_ok hdecode, ih]
    cases decoder.boundaries image stop with
    | error failure => rfl
    | ok offsets => rfl

theorem offset_getElem? (h : decoder.Tiling image base start instructions stop) {i : Nat}
    (hi : instructions[i]? = some instruction) :
    instruction.offset =
      start + (((instructions.take i).map Instruction.encoding).flatten).length := by
  induction h generalizing i with
  | nil offset => contradiction
  | @cons offset stop first instructions hdecode _ ih =>
    cases i with
    | zero =>
      obtain rfl : first = instruction := by simpa using hi
      simpa using offset_of_decode hdecode
    | succ i =>
      have hrest := ih (by simpa using hi)
      rw [nextOffset_of_decode hdecode, Instruction.size] at hrest
      simp only [List.take_succ_cons, List.map_cons, List.flatten_cons, List.length_append]
      omega

end Tiling

theorem exists_tiling_flatten (base : Option UInt64) {words : List (List UInt8)}
    (h : ∀ word ∈ words, ∃ origin alone, decoder.decode word 0 origin = .ok alone ∧
      alone.size = word.length) (front : List UInt8) :
    ∃ instructions,
      decoder.Tiling (front ++ words.flatten) base front.length instructions
        (front ++ words.flatten).length ∧
      instructions.map Instruction.encoding = words := by
  -- The words in front of a word are part of what stands in front of the rest.
  induction words generalizing front with
  | nil =>
    refine ⟨[], ?_, rfl⟩
    rw [List.flatten_nil, List.append_nil]
    exact .nil _
  | cons word words ih =>
    obtain ⟨origin, alone, halone, hsize⟩ := h word List.mem_cons_self
    obtain ⟨found, hfound, hencoding, -⟩ := decode_between halone front words.flatten base
    rw [encoding_eq_of_size halone hsize] at hfound hencoding
    obtain ⟨instructions, htiling, hencodings⟩ :=
      ih (fun other hother => h other (List.mem_cons_of_mem _ hother)) (front ++ word)
    have hnext : found.nextOffset = (front ++ word).length := by
      rw [nextOffset_of_decode hfound, Instruction.size, hencoding, List.length_append]
    rw [List.append_assoc, ← List.flatten_cons, ← hnext] at htiling
    rw [← List.flatten_cons] at hfound
    refine ⟨found :: instructions, .cons hfound htiling, ?_⟩
    rw [List.map_cons, hencoding, hencodings]

theorem Tiling.map_offset_eq (h : decoder.Tiling image base start instructions stop) :
    instructions.map Instruction.offset = (List.range instructions.length).map fun i =>
      start + (((instructions.map Instruction.encoding).take i).flatten).length := by
  apply List.ext_getElem?
  intro i
  rw [List.getElem?_map, List.getElem?_map]
  by_cases hi : i < instructions.length
  · rw [List.getElem?_eq_getElem hi, List.getElem?_range hi]
    simp only [Option.map_some, h.offset_getElem? (List.getElem?_eq_getElem hi), List.map_take]
  · rw [List.getElem?_eq_none (by omega), List.getElem?_eq_none (by rw [List.length_range]; omega)]
    rfl

/-- A sweep of encodings one behind the other finds their instructions and nothing else, each at the sum of
the lengths before it. -/
theorem sweep_flatten (calls : List (OpcodeKey × Descriptor)) (config : Config)
    (front : List UInt8) {words : List (List UInt8)} (base : Option UInt64)
    (h : ∀ word ∈ words, ∃ origin alone,
      (Decoder.mk (.ofCalls calls) config).decode word 0 origin = .ok alone ∧
        alone.size = word.length) :
    ∃ instructions,
      (Decoder.mk (.ofCalls calls) config).sweep (front ++ words.flatten) front.length base =
        ⟨instructions, none, (front ++ words.flatten).length⟩ ∧
      instructions.length = words.length ∧
      (∀ (i : Nat) (word : List UInt8), words[i]? = some word → ∃ found,
        instructions[i]? = some found ∧ found.encoding = word ∧
        found.offset = front.length + (words.take i).flatten.length ∧
        ∀ origin, ∃ alone, (Decoder.mk (.ofCalls calls) config).decode word 0 origin = .ok alone ∧
          found.unplaced = alone.unplaced) ∧
      (Decoder.mk (.ofCalls calls) config).boundaries (front ++ words.flatten) front.length =
        .ok ((List.range words.length).map fun i => front.length + (words.take i).flatten.length) := by
  obtain ⟨instructions, htiling, hencodings⟩ := exists_tiling_flatten base h front
  refine ⟨instructions, htiling.sweep_eq_of_stops (.complete rfl), ?_, fun i word hword => ?_, ?_⟩
  · rw [← hencodings, List.length_map]
  · rw [← hencodings, List.getElem?_map] at hword
    obtain ⟨found, hfound, rfl⟩ := Option.map_eq_some_iff.mp hword
    refine ⟨found, hfound, rfl, ?_, fun origin => ?_⟩
    · rw [htiling.offset_getElem? hfound, List.map_take, hencodings]
    · have hdecode := htiling.decode_of_mem (List.mem_of_getElem? hfound)
      obtain ⟨again, hagain, -, hsame⟩ := decode_between hdecode [] [] origin
      rw [List.append_nil] at hagain
      exact ⟨again, hagain, hsame.symm⟩
  · obtain ⟨others, hothers, hsame⟩ := exists_tiling_flatten none h front
    have hlength : others.length = words.length := by rw [← hsame, List.length_map]
    rw [hothers.boundaries_eq, boundaries_length, hothers.map_offset_eq, hsame, hlength]
    simp only [Except.map, List.append_nil]

theorem sweep_flatten_jump_add : ∃ instructions add,
    small.sweep [0x66, 0x0F, 0x66, 0xEB, 0x02, 0x81, 0xC0, 1, 2, 3, 4] 2 (some 0x1000) =
        ⟨instructions, none, 11⟩ ∧
      instructions.length = 2 ∧ instructions[1]? = some add ∧ add.offset = 5 ∧
      add.encoding = [0x81, 0xC0, 1, 2, 3, 4] ∧
      small.boundaries [0x66, 0x0F, 0x66, 0xEB, 0x02, 0x81, 0xC0, 1, 2, 3, 4] 2 = .ok [2, 5] := by
  have hword : ∀ word ∈ [[0x66, 0xEB, 0x02], [0x81, 0xC0, 1, 2, 3, 4]], ∃ origin alone,
      small.decode word 0 origin = .ok alone ∧ alone.size = word.length := by
    intro word hmem
    have hlength : small.lengthAt word 0 = .ok word.length := by
      revert word
      decide +kernel
    exact ⟨none, lengthAt_eq_ok_iff.mp hlength⟩
  obtain ⟨instructions, hsweep, hcount, hwords, hboundaries⟩ :=
    sweep_flatten _ {} [0x66, 0x0F] (some 0x1000) hword
  obtain ⟨add, hadd, hencoding, hoffset, -⟩ := hwords 1 _ rfl
  exact ⟨instructions, add, hsweep, hcount, hadd, hoffset, hencoding, hboundaries⟩

end IA32.Decoder
