import IA32.Proofs.Addresses
import IA32.Proofs.Concatenation

set_option autoImplicit false

namespace IA32

namespace Sweep

def results (sweep : Sweep) : List (Except DecodeError Instruction) :=
  sweep.instructions.map .ok ++ sweep.error.toList.map .error

def walk (sweep : Sweep) (start count : Nat) : Walk where
  offset := start + (sweep.instructions.take count).foldr
    (fun instruction size => instruction.size + size) 0
  hasStopped := decide (sweep.instructions.length < count)

def offsets (sweep : Sweep) : Except DecodeError (List Nat) :=
  match sweep.error with
  | none => .ok (sweep.instructions.map Instruction.offset)
  | some error => .error error

variable {sweep : Sweep} {start count : Nat} {instruction : Instruction}

theorem foldr_size_concat (instructions : List Instruction) (last : Instruction) :
    (instructions ++ [last]).foldr (fun instruction size => instruction.size + size) 0 =
      instructions.foldr (fun instruction size => instruction.size + size) 0 + last.size := by
  induction instructions with
  | nil => simp
  | cons first instructions ih =>
    rw [List.cons_append, List.foldr_cons, List.foldr_cons, ih, Nat.add_assoc]

theorem walk_succ (h : sweep.instructions[count]? = some instruction) :
    sweep.walk start (count + 1) = ⟨(sweep.walk start count).offset + instruction.size, false⟩ := by
  have hlt : count < sweep.instructions.length := (List.getElem?_eq_some_iff.mp h).1
  have hrunning : ¬ sweep.instructions.length < count + 1 := by omega
  unfold walk
  rw [List.take_add_one, h, Option.toList_some, foldr_size_concat, Nat.add_assoc,
    decide_eq_false hrunning]

theorem walk_of_le (h : count ≤ sweep.instructions.length) :
    sweep.walk start count = ⟨(sweep.walk start count).offset, false⟩ := by
  unfold walk
  rw [decide_eq_false (Nat.not_lt.mpr h)]

theorem walk_offset_of_le (h : sweep.instructions.length ≤ count) :
    (sweep.walk start count).offset = start + sweep.bytesDecoded := by
  unfold walk bytesDecoded
  rw [List.take_of_length_le h]

theorem walk_of_gt (h : sweep.instructions.length < count) :
    sweep.walk start count = ⟨start + sweep.bytesDecoded, true⟩ := by
  rw [← walk_offset_of_le (Nat.le_of_lt h)]
  unfold walk
  rw [decide_eq_true h]

theorem walk_offset_mono (sweep : Sweep) (start count : Nat) :
    (sweep.walk start count).offset ≤ (sweep.walk start (count + 1)).offset := by
  by_cases hlt : count < sweep.instructions.length
  · rw [walk_succ (List.getElem?_eq_getElem hlt)]
    exact Nat.le_add_right _ _
  · rw [walk_offset_of_le (by omega), walk_offset_of_le (by omega)]

theorem results_getElem?_of_lt (h : sweep.instructions[count]? = some instruction) :
    sweep.results[count]? = some (.ok instruction) := by
  have hlt : count < sweep.instructions.length := (List.getElem?_eq_some_iff.mp h).1
  unfold results
  rw [List.getElem?_append_left (by simpa using hlt), List.getElem?_map, h]
  rfl

theorem results_getElem?_length (sweep : Sweep) :
    sweep.results[sweep.instructions.length]? = sweep.error.map .error := by
  unfold results
  rw [List.getElem?_append_right (by simp), List.length_map, Nat.sub_self]
  cases sweep.error <;> rfl

theorem results_getElem?_of_gt (h : sweep.instructions.length < count) :
    sweep.results[count]? = none := by
  apply List.getElem?_eq_none
  unfold results
  have herror : (sweep.error.toList.map (Except.error (α := Instruction))).length ≤ 1 := by
    cases sweep.error <;> simp
  rw [List.length_append, List.length_map]
  omega

end Sweep

namespace Decoder

variable {decoder : Decoder} {image : List UInt8} {base : Option UInt64} {start stop count : Nat}
  {instruction : Instruction} {instructions : List Instruction} {error : Option DecodeError}

theorem step_of_ok (h : decoder.decode image start base = .ok instruction) :
    decoder.step image base ⟨start, false⟩ =
      (some (.ok instruction), ⟨instruction.nextOffset, false⟩) := by
  have hrunning : ¬ ((⟨start, false⟩ : Walk).hasStopped = true ∨ start = image.length) := by
    simpa using ne_length_of_decode h
  unfold step
  rw [if_neg hrunning, h]

theorem Stops.step_eq (h : decoder.Stops image base stop error) :
    decoder.step image base ⟨stop, false⟩ = (error.map .error, ⟨stop, true⟩) := by
  unfold step
  cases h with
  | complete hend => rw [if_pos (.inr hend)]; rfl
  | failed hend herror =>
    rw [if_neg (by simpa using hend), herror]
    rfl

theorem step_of_stopped {walk : Walk} (h : walk.hasStopped = true) :
    decoder.step image base walk = (none, walk) := by
  obtain ⟨offset, hasStopped⟩ := walk
  obtain rfl : hasStopped = true := h
  unfold step
  rw [if_pos (.inl rfl)]

/-- One step leads from each walk to the next, with the next result. -/
theorem step_walk (decoder : Decoder) (image : List UInt8) (start : Nat) (base : Option UInt64)
    (count : Nat) :
    decoder.step image base ((decoder.sweep image start base).walk start count) =
      ((decoder.sweep image start base).results[count]?,
        (decoder.sweep image start base).walk start (count + 1)) := by
  obtain ⟨htiling, hstops⟩ := tiling_sweep decoder image start base
  generalize decoder.sweep image start base = sweep at htiling hstops ⊢
  have hend : sweep.endOffset = start + sweep.bytesDecoded := htiling.stop_eq
  rcases Nat.lt_trichotomy count sweep.instructions.length with hlt | rfl | hgt
  · -- The tiling splits in front of the instruction that is next: the walk stands where the front part ends.
    have hget := List.getElem?_eq_getElem hlt
    obtain ⟨middle, hfront, hback⟩ := htiling.take_drop count
    have hmiddle : (sweep.walk start count).offset = middle := hfront.stop_eq.symm
    rw [List.drop_eq_getElem_cons hlt] at hback
    cases hback with
    | cons hdecode _ =>
      rw [Sweep.walk_succ hget, Sweep.results_getElem?_of_lt hget, Sweep.walk_of_le (Nat.le_of_lt hlt),
        hmiddle, step_of_ok hdecode, nextOffset_of_decode hdecode]
  · rw [Sweep.walk_of_le (Nat.le_refl _), Sweep.walk_offset_of_le (Nat.le_refl _), ← hend,
      hstops.step_eq, Sweep.results_getElem?_length, Sweep.walk_of_gt (Nat.lt_succ_self _), hend]
  · rw [Sweep.walk_of_gt hgt, step_of_stopped rfl, Sweep.results_getElem?_of_gt hgt,
      Sweep.walk_of_gt (Nat.lt_succ_of_lt hgt)]

/-- A run of steps goes through the walks that one step leads through. -/
theorem steps_eq_map {results : Nat → Option (Except DecodeError Instruction)} {walks : Nat → Walk}
    (hstep : ∀ index, decoder.step image base (walks index) = (results index, walks (index + 1)))
    (count : Nat) :
    decoder.steps image base count (walks 0) =
      (List.range count).map fun index => (results index, walks (index + 1)) := by
  induction count generalizing results walks with
  | zero => rfl
  | succ count ih =>
    have hrest := ih fun index => hstep (index + 1)
    rw [Nat.zero_add] at hrest
    rw [steps, hstep 0, List.range_succ_eq_map, List.map_cons, List.map_map]
    simp only [Nat.zero_add, hrest]
    rfl

theorem Tiling.unbased (h : decoder.Tiling image base start instructions stop) :
    decoder.Tiling image none start (instructions.map Instruction.unbased) stop := by
  induction h with
  | nil offset => exact .nil offset
  | @cons offset stop instruction instructions hdecode _ ih =>
    refine .cons ?_ ih
    rw [decode_none decoder image offset base, hdecode]
    rfl

theorem Stops.unbased (h : decoder.Stops image base stop error) :
    decoder.Stops image none stop error := by
  cases h with
  | complete hend => exact .complete hend
  | failed hend herror =>
    refine .failed hend ?_
    rw [decode_none decoder image stop base, herror]
    rfl

theorem Stops.boundaries_eq (h : decoder.Stops image none stop error) :
    decoder.boundaries image stop = error.elim (.ok []) .error := by
  cases h with
  | complete hend =>
    rw [boundaries_eq_match, if_pos hend]
    rfl
  | failed hend herror =>
    rw [boundaries_eq_match, if_neg hend, herror]
    rfl

/-- The boundaries are the offsets of a sweep, whatever the base of that sweep. -/
theorem boundaries_eq_offsets (decoder : Decoder) (image : List UInt8) (start : Nat)
    (base : Option UInt64) :
    decoder.boundaries image start = (decoder.sweep image start base).offsets := by
  obtain ⟨htiling, hstops⟩ := tiling_sweep decoder image start base
  generalize decoder.sweep image start base = sweep at htiling hstops ⊢
  have hoffsets : (sweep.instructions.map Instruction.unbased).map Instruction.offset =
      sweep.instructions.map Instruction.offset := List.map_map
  rw [htiling.unbased.boundaries_eq, hstops.unbased.boundaries_eq, hoffsets, Sweep.offsets]
  cases sweep.error with
  | none => exact congrArg Except.ok (List.append_nil _)
  | some failure => rfl

end Decoder

/-- What a walk from `start` tells of a sweep. -/
structure Sweep.Walked (sweep : Sweep) (decoder : Decoder) (image : List UInt8) (start : Nat)
    (base : Option UInt64) : Prop where
  /-- Any number of steps yields the results in order and nothing behind them; each walk stands behind the
  instructions that were yielded so far. -/
  steps : ∀ count, decoder.steps image base count ⟨start, false⟩ =
    (List.range count).map fun index => (sweep.results[index]?, sweep.walk start (index + 1))
  advances : ∀ count, (sweep.walk start count).offset ≤ (sweep.walk start (count + 1)).offset
  rests : ∀ count, sweep.instructions.length ≤ count →
    (sweep.walk start count).offset = sweep.endOffset
  boundaries : decoder.boundaries image start = sweep.offsets

namespace Decoder

theorem sweep_walked (decoder : Decoder) (image : List UInt8) (start : Nat)
    (base : Option UInt64) :
    (decoder.sweep image start base).Walked decoder image start base := by
  obtain ⟨htiling, -⟩ := tiling_sweep decoder image start base
  refine {
    steps := steps_eq_map (step_walk decoder image start base)
    advances := Sweep.walk_offset_mono _ start
    rests := ?_
    boundaries := boundaries_eq_offsets decoder image start base }
  intro count hle
  rw [Sweep.walk_offset_of_le hle]
  exact htiling.stop_eq.symm

-- A jump, an error, and nothing from then on.
example : small.steps [0xEB, 0x00, 0x81, 0xC8] none 4 ⟨0, false⟩ =
    [(some (small.decode [0xEB, 0x00, 0x81, 0xC8] 0 none), ⟨2, false⟩),
      (some (.error ⟨2, .unsupportedOpcode ⟨.primary, 0x81, some 1⟩⟩), ⟨2, true⟩),
      (none, ⟨2, true⟩), (none, ⟨2, true⟩)] := by decide +kernel

end Decoder
end IA32
