import Mathlib.Data.List.Chain
import Mathlib.Data.List.Forall2
import IA32.Sweep
import IA32.Proofs.Finality
import IA32.Proofs.Locality

set_option autoImplicit false

/-!
# Tilings

Instructions tile a part of an image if each is decoded where the one before it ends. A sweep is the tiling
from its start to an offset where it stops, and nothing else is: what holds of every instruction and of every
two neighbours is proved of tilings by induction. A tiling stays one when the image grows, so a sweep of the
longer image goes on where that of the shorter one stopped.
-/
namespace IA32

namespace Sweep

def behind (instructions : List Instruction) (sweep : Sweep) : Sweep :=
  { sweep with instructions := instructions ++ sweep.instructions }

end Sweep

namespace Decoder

inductive Tiling (decoder : Decoder) (image : List UInt8) (base : Option UInt64) :
    Nat → List Instruction → Nat → Prop where
  | nil (offset : Nat) : Tiling decoder image base offset [] offset
  | cons {offset stop : Nat} {instruction : Instruction} {instructions : List Instruction} :
      decoder.decode image offset base = .ok instruction →
      Tiling decoder image base instruction.nextOffset instructions stop →
      Tiling decoder image base offset (instruction :: instructions) stop

/-- At this offset a sweep stops, with an error unless it is the end of the image. -/
inductive Stops (decoder : Decoder) (image : List UInt8) (base : Option UInt64) (offset : Nat) :
    Option DecodeError → Prop where
  | complete : offset = image.length → Stops decoder image base offset none
  | failed {error : DecodeError} : offset ≠ image.length →
      decoder.decode image offset base = .error error →
      Stops decoder image base offset (some error)

variable {decoder other : Decoder} {image larger : List UInt8} {base : Option UInt64}
  {start stop : Nat} {instruction : Instruction} {instructions : List Instruction}
  {error : Option DecodeError}

theorem encoding_of_decode (h : decoder.decode image start base = .ok instruction) :
    instruction.encoding = (image.drop start).take instruction.size := by
  obtain ⟨_, -, -, -, hbytes, -⟩ := readCode_encoding h
  exact hbytes

theorem size_le_of_decode (h : decoder.decode image start base = .ok instruction) :
    instruction.size ≤ decoder.config.lengthLimit := by
  obtain ⟨reading, -, hsize, hlimit, -, -⟩ := readCode_encoding h
  rwa [hsize] at hlimit

theorem offset_of_decode (h : decoder.decode image start base = .ok instruction) :
    instruction.offset = start := (decode_offset h).2.1

theorem nextOffset_of_decode (h : decoder.decode image start base = .ok instruction) :
    instruction.nextOffset = start + instruction.size := by
  rw [Instruction.nextOffset, offset_of_decode h]

theorem lt_nextOffset_of_decode (h : decoder.decode image start base = .ok instruction) :
    start < instruction.nextOffset := by
  obtain ⟨-, -, hpos, -⟩ := decode_offset h
  rw [nextOffset_of_decode h]
  omega

theorem nextOffset_le_of_decode (h : decoder.decode image start base = .ok instruction) :
    instruction.nextOffset ≤ image.length := (decode_offset h).2.2.2

theorem ne_length_of_decode (h : decoder.decode image start base = .ok instruction) :
    start ≠ image.length :=
  Nat.ne_of_lt (Nat.lt_of_lt_of_le (lt_nextOffset_of_decode h) (nextOffset_le_of_decode h))

theorem address_of_decode (h : decoder.decode image start base = .ok instruction) :
    instruction.address = base.map (· + .ofNat start) := by
  obtain ⟨reading, -, -, rfl⟩ := decode_eq_ok_iff.mp h
  rfl

theorem nextAddress_of_decode (h : decoder.decode image start base = .ok instruction) :
    instruction.nextAddress = base.map (· + .ofNat instruction.nextOffset) := by
  have haddress := address_of_decode h
  unfold Instruction.nextAddress
  rw [haddress, nextOffset_of_decode h, UInt64.ofNat_add]
  cases base with
  | none => rfl
  | some origin =>
    change some (origin + .ofNat start + .ofNat instruction.size) = some _
    rw [UInt64.add_assoc]

theorem sweep_eq_match (decoder : Decoder) (image : List UInt8) (start : Nat)
    (base : Option UInt64) :
    decoder.sweep image start base =
      if start = image.length then ⟨[], none, start⟩
      else match decoder.decode image start base with
        | .ok instruction => (decoder.sweep image instruction.nextOffset base).after instruction
        | .error error => ⟨[], some error, start⟩ := by
  rw [sweep]
  split
  · rfl
  · split
    · next hok => rw [hok]
    · next herror => rw [herror]

theorem sweep_of_ok (h : decoder.decode image start base = .ok instruction) :
    decoder.sweep image start base =
      (decoder.sweep image instruction.nextOffset base).after instruction := by
  rw [sweep_eq_match, if_neg (ne_length_of_decode h), h]

theorem Stops.sweep_eq (h : decoder.Stops image base start error) :
    decoder.sweep image start base = ⟨[], error, start⟩ := by
  cases h with
  | complete hend => rw [sweep_eq_match, if_pos hend]
  | failed hend herror => rw [sweep_eq_match, if_neg hend, herror]

theorem Stops.isNone_iff (h : decoder.Stops image base start error) :
    error.isNone = true ↔ start = image.length := by
  cases h with
  | complete hend => simp [hend]
  | failed hend herror => simp [hend]

theorem Stops.exists_error (h : decoder.Stops image base start error) (herror : error.isNone = false) :
    ∃ failure, error = some failure ∧ decoder.decode image start base = .error failure ∧
      failure.offset = start := by
  cases h with
  | complete hend => contradiction
  | failed hend hfailure => exact ⟨_, rfl, hfailure, offset_of_decode_error hfailure⟩

theorem Stops.of_error (h : decoder.Stops image base stop error)
    (herror : ∀ failure, decoder.decode image stop base = .error failure →
      other.decode image stop base = .error failure) :
    other.Stops image base stop error := by
  cases h with
  | complete hend => exact .complete hend
  | failed hend hfailure => exact .failed hend (herror _ hfailure)

/-- A sweep is a tiling up to where it stops. -/
theorem tiling_sweep (decoder : Decoder) (image : List UInt8) (start : Nat) (base : Option UInt64) :
    decoder.Tiling image base start (decoder.sweep image start base).instructions
        (decoder.sweep image start base).endOffset ∧
      decoder.Stops image base (decoder.sweep image start base).endOffset
        (decoder.sweep image start base).error := by
  -- The cases of the sweep itself: the end of the image, an instruction with the sweep behind it, an error.
  induction start using sweep.induct decoder image base with
  | case1 =>
    have hstops : decoder.Stops image base image.length none := .complete rfl
    rw [hstops.sweep_eq]
    exact ⟨.nil _, hstops⟩
  | case2 start hend instruction h ih =>
    rw [sweep_of_ok h]
    exact ⟨.cons h ih.1, ih.2⟩
  | case3 start hend error h =>
    have hstops : decoder.Stops image base start (some error) := .failed hend h
    rw [hstops.sweep_eq]
    exact ⟨.nil _, hstops⟩

namespace Tiling

/-- A sweep from the start of a tiling goes on where the tiling ends. -/
theorem sweep_eq (h : decoder.Tiling image base start instructions stop) :
    decoder.sweep image start base = (decoder.sweep image stop base).behind instructions := by
  induction h with
  | nil offset => rfl
  | cons hdecode _ ih =>
    rw [sweep_of_ok hdecode, ih]
    rfl

theorem sweep_eq_of_stops (h : decoder.Tiling image base start instructions stop)
    (hstops : decoder.Stops image base stop error) :
    decoder.sweep image start base = ⟨instructions, error, stop⟩ := by
  rw [h.sweep_eq, hstops.sweep_eq, Sweep.behind, List.append_nil]

theorem mono (h : decoder.Tiling image base start instructions stop)
    (hok : ∀ offset found, decoder.decode image offset base = .ok found →
      other.decode larger offset base = .ok found) :
    other.Tiling larger base start instructions stop := by
  induction h with
  | nil offset => exact .nil offset
  | cons hdecode _ ih => exact .cons (hok _ _ hdecode) ih

/-- Where another decoder finds instructions at the same offsets, it has a tiling by these. -/
theorem forall₂ {R : Instruction → Instruction → Prop}
    (h : decoder.Tiling image base start instructions stop)
    (hR : ∀ offset found, decoder.decode image offset base = .ok found →
      ∃ again, other.decode image offset base = .ok again ∧ again.nextOffset = found.nextOffset ∧
        R found again) :
    ∃ others, other.Tiling image base start others stop ∧ List.Forall₂ R instructions others := by
  induction h with
  | nil offset => exact ⟨[], .nil offset, .nil⟩
  | cons hdecode _ ih =>
    obtain ⟨again, hagain, hnext, hsame⟩ := hR _ _ hdecode
    obtain ⟨others, htiling, hothers⟩ := ih
    exact ⟨again :: others, .cons hagain (hnext ▸ htiling), .cons hsame hothers⟩

theorem stop_le (h : decoder.Tiling image base start instructions stop) :
    stop ≤ max start image.length := by
  induction h with
  | nil offset => exact Nat.le_max_left _ _
  | cons hdecode _ ih =>
    have hend := nextOffset_le_of_decode hdecode
    omega

theorem decode_of_mem (h : decoder.Tiling image base start instructions stop)
    (hmem : instruction ∈ instructions) :
    decoder.decode image instruction.offset base = .ok instruction := by
  induction h with
  | nil offset => contradiction
  | cons hdecode _ ih =>
    rcases List.mem_cons.mp hmem with rfl | hmem
    · rwa [offset_of_decode hdecode]
    · exact ih hmem

theorem map_offset (h : decoder.Tiling image base start instructions stop) :
    instructions.map Instruction.offset ++ [stop] =
      start :: instructions.map Instruction.nextOffset := by
  induction h with
  | nil offset => rfl
  | cons hdecode _ ih =>
    rw [List.map_cons, List.cons_append, ih, offset_of_decode hdecode]
    rfl

/-- A relation holds along a tiling if it holds between what is decoded at two offsets, the second of them
where the first instruction ends. -/
theorem isChain {R : Instruction → Instruction → Prop}
    (h : decoder.Tiling image base start instructions stop)
    (hR : ∀ offset first second, decoder.decode image offset base = .ok first →
      decoder.decode image first.nextOffset base = .ok second → R first second) :
    instructions.IsChain R := by
  induction h with
  | nil offset => exact .nil
  | cons hdecode htail ih =>
    cases htail with
    | nil => exact .singleton _
    | cons hnext _ => exact .cons_cons (hR _ _ _ hdecode hnext) ih

theorem stop_eq (h : decoder.Tiling image base start instructions stop) :
    stop = start + instructions.foldr (fun found size => found.size + size) 0 := by
  induction h with
  | nil offset => rfl
  | cons hdecode _ ih => rw [ih, nextOffset_of_decode hdecode, List.foldr_cons, Nat.add_assoc]

theorem take_drop (h : decoder.Tiling image base start instructions stop) (count : Nat) :
    ∃ middle, decoder.Tiling image base start (instructions.take count) middle ∧
      decoder.Tiling image base middle (instructions.drop count) stop := by
  induction h generalizing count with
  | nil offset =>
    rw [List.take_nil, List.drop_nil]
    exact ⟨offset, .nil offset, .nil offset⟩
  | cons hdecode htail ih =>
    cases count with
    | zero => exact ⟨_, .nil _, .cons hdecode htail⟩
    | succ count =>
      obtain ⟨middle, hfront, hback⟩ := ih count
      exact ⟨middle, .cons hdecode hfront, hback⟩

theorem length_le (h : decoder.Tiling image base start instructions stop) :
    instructions.length ≤ stop - start := by
  induction h with
  | nil offset => exact Nat.zero_le _
  | @cons offset stop instruction instructions hdecode htail ih =>
    have hlt := lt_nextOffset_of_decode hdecode
    have hsum := htail.stop_eq
    rw [List.length_cons]
    omega

theorem flatMap_encoding (h : decoder.Tiling image base start instructions stop) :
    instructions.flatMap Instruction.encoding = (image.drop start).take (stop - start) := by
  induction h with
  | nil offset => simp
  | @cons offset stop instruction instructions hdecode htail ih =>
    have hnext := nextOffset_of_decode hdecode
    have hsum := htail.stop_eq
    have hsplit : stop - offset = instruction.size + (stop - instruction.nextOffset) := by omega
    rw [List.flatMap_cons, ih, encoding_of_decode hdecode, hsplit, List.take_add, List.drop_drop,
      hnext]

theorem append_image (h : decoder.Tiling image base start instructions stop) (more : List UInt8) :
    decoder.Tiling (image ++ more) base start instructions stop :=
  h.mono fun _ _ hfound => decode_append_of_ok hfound more

end Tiling

theorem Stops.append_image {failure : DecodeError}
    (h : decoder.Stops image base stop (some failure)) (hstop : stop ≤ image.length)
    (hkind : failure.isTruncation = false) (more : List UInt8) :
    decoder.Stops (image ++ more) base stop (some failure) := by
  cases h with
  | failed hend herror =>
    have hmore : stop ≠ (image ++ more).length := by
      rw [List.length_append]
      omega
    exact .failed hmore (decode_append_of_error hstop herror hkind more)

end Decoder

/-- What a sweep from `start` tells of the image: the bytes up to its end are those of its instructions, one
behind the other, and it ends for a reason. -/
structure Sweep.Tiles (sweep : Sweep) (decoder : Decoder) (image : List UInt8) (start : Nat)
    (base : Option UInt64) : Prop where
  /-- The first instruction is at the start; where one ends there is the next, or the end of the sweep. -/
  offsets : sweep.instructions.map Instruction.offset ++ [sweep.endOffset] =
    start :: sweep.instructions.map Instruction.nextOffset
  bytesDecoded : sweep.endOffset = start + sweep.bytesDecoded
  count : sweep.instructions.length ≤ image.length - start
  encodings : sweep.instructions.flatMap Instruction.encoding =
    (image.drop start).take (sweep.endOffset - start)
  decoded : ∀ instruction ∈ sweep.instructions,
    decoder.decode image instruction.offset base = .ok instruction ∧
      1 ≤ instruction.size ∧ instruction.size ≤ decoder.config.lengthLimit
  addresses : ∀ origin, base = some origin →
    sweep.instructions.IsChain fun first second =>
      ∃ address, first.nextAddress = some address ∧ second.address = some address ∧
        (first.isCall = true → first.returnAddress = some address)
  complete : sweep.isComplete = true ↔ sweep.endOffset = image.length
  stopped : sweep.isComplete = false → ∃ error, sweep.error = some error ∧
    decoder.decode image sweep.endOffset base = .error error ∧ error.offset = sweep.endOffset

namespace Decoder

theorem sweep_tiles (decoder : Decoder) (image : List UInt8) (start : Nat) (base : Option UInt64) :
    (decoder.sweep image start base).Tiles decoder image start base := by
  obtain ⟨htiling, hstops⟩ := tiling_sweep decoder image start base
  generalize decoder.sweep image start base = sweep at htiling hstops
  refine {
    offsets := htiling.map_offset
    bytesDecoded := htiling.stop_eq
    count := ?_
    encodings := htiling.flatMap_encoding
    decoded := ?_
    addresses := ?_
    complete := hstops.isNone_iff
    stopped := hstops.exists_error }
  · have hlen := htiling.length_le
    have hend := htiling.stop_le
    omega
  · intro instruction hmem
    have hdecode := htiling.decode_of_mem hmem
    obtain ⟨-, -, hpos, -⟩ := decode_offset hdecode
    exact ⟨hdecode, hpos, size_le_of_decode hdecode⟩
  · rintro origin rfl
    refine htiling.isChain fun offset first second hfirst hsecond => ?_
    have hnext := nextAddress_of_decode hfirst
    refine ⟨_, hnext, address_of_decode hsecond, fun hcall => ?_⟩
    rw [Instruction.returnAddress, if_pos hcall, hnext]
    rfl

/-- The sweep of a longer image goes on where that of the shorter one stopped. It finds nothing more if that
stopped at an error other than a truncation. -/
theorem sweep_append (decoder : Decoder) (image more : List UInt8) (start : Nat)
    (base : Option UInt64) :
    decoder.sweep (image ++ more) start base =
        (decoder.sweep (image ++ more) (decoder.sweep image start base).endOffset base).behind
          (decoder.sweep image start base).instructions ∧
      (start ≤ image.length → ∀ error, (decoder.sweep image start base).error = some error →
        error.isTruncation = false →
          decoder.sweep (image ++ more) start base = decoder.sweep image start base) := by
  obtain ⟨htiling, hstops⟩ := tiling_sweep decoder image start base
  have hlonger := htiling.append_image more
  refine ⟨hlonger.sweep_eq, fun hstart error herror hkind => ?_⟩
  have hend := htiling.stop_le
  rw [herror] at hstops
  rw [hlonger.sweep_eq_of_stops (hstops.append_image (by omega) hkind more), ← herror]

theorem sweep_append_jump : ∃ jump : Instruction,
    small.sweep [0xEB, 0x02, 0x81, 0xC8] 0 none =
        ⟨[jump], some ⟨2, .unsupportedOpcode ⟨.primary, 0x81, some 1⟩⟩, 2⟩ ∧
      small.sweep [0xEB, 0x02, 0x81, 0xC8, 0xEB, 0x00] 0 none =
        small.sweep [0xEB, 0x02, 0x81, 0xC8] 0 none ∧
      small.sweep [0xEB, 0x02, 0x81] 0 none = ⟨[jump], some ⟨2, .truncated 1⟩, 2⟩ ∧
      small.sweep [0xEB, 0x02, 0x81, 0xC0, 1, 2, 3, 4] 0 none =
        (small.sweep [0xEB, 0x02, 0x81, 0xC0, 1, 2, 3, 4] 2 none).behind [jump] := by
  let jump : Instruction := {
    mnemonic := "jmp"
    shape := .transfer .jump (some (.relative 2 none))
    operands := [.immediate ⟨2, .byte, true⟩]
    encoding := [0xEB, 0x02]
    offset := 0
    address := none
    prefixes := {} }
  have hsweep : ∀ image error, small.decode image 0 none = .ok jump →
      small.Stops image none 2 (some error) →
      small.sweep image 0 none = ⟨[jump], some error, 2⟩ :=
    fun image error hjump hstops => (Tiling.cons hjump (.nil 2)).sweep_eq_of_stops hstops
  have hhard := hsweep [0xEB, 0x02, 0x81, 0xC8] ⟨2, .unsupportedOpcode ⟨.primary, 0x81, some 1⟩⟩
    (by decide +kernel) (.failed (by decide) (by decide +kernel))
  have hcut := hsweep [0xEB, 0x02, 0x81] ⟨2, .truncated 1⟩ (by decide +kernel)
    (.failed (by decide) (by decide +kernel))
  refine ⟨jump, hhard, ?_, hcut, ?_⟩
  · exact (sweep_append small [0xEB, 0x02, 0x81, 0xC8] [0xEB, 0x00] 0 none).2 (by decide) _
      (by rw [hhard]) rfl
  · have hmore := (sweep_append small [0xEB, 0x02, 0x81] [0xC0, 1, 2, 3, 4] 0 none).1
    rw [hcut] at hmore
    exact hmore

end Decoder
end IA32
