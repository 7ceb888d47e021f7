import IA32.Proofs.Tiling

set_option autoImplicit false

namespace IA32.Decoder

def limited (limit start : Nat) : Except DecodeError Instruction → Except DecodeError Instruction
  | .ok instruction =>
    if instruction.size > limit then .error ⟨start, .tooLong limit⟩ else .ok instruction
  | .error ⟨_, .tooLong _⟩ => .error ⟨start, .tooLong limit⟩
  | .error error => .error error

def withBound (decoder : Decoder) (lengthBound : Nat) : Decoder :=
  { decoder with config := { decoder.config with lengthBound } }

variable {decoder : Decoder} {image code : List UInt8} {start : Nat} {base : Option UInt64}
  {reading : Reading} {bound larger : Nat}

theorem readCode_withBound (decoder : Decoder) (bound : Nat) (code : List UInt8) :
    (decoder.withBound bound).readCode code = decoder.readCode code := rfl

theorem instruction_withBound (decoder : Decoder) (bound : Nat) (reading : Reading)
    (code : List UInt8) (start : Nat) (base : Option UInt64) :
    reading.instruction (decoder.withBound bound).config code start base =
      reading.instruction decoder.config code start base := rfl

theorem place_withBound
    (h : (decoder.withBound bound).config.lengthLimit ≤ (decoder.withBound larger).config.lengthLimit)
    (start : Nat) (base : Option UInt64) :
    (decoder.withBound bound).place code start base (decoder.readCode code) =
      limited (decoder.withBound bound).config.lengthLimit start
        ((decoder.withBound larger).place code start base (decoder.readCode code)) := by
  rcases hread : decoder.readCode code with (_ | reason) | reading
  · rfl
  · cases reason <;> rfl
  · obtain ⟨-, hinside, -⟩ := readCode_take_size hread
    have hsize := reading.size_instruction hinside decoder.config start base
    simp only [place, instruction_withBound]
    generalize (decoder.withBound bound).config.lengthLimit = limit at h ⊢
    by_cases hlarger : reading.size > (decoder.withBound larger).config.lengthLimit
    · have hlimit : reading.size > limit := by omega
      rw [if_pos hlimit, if_pos hlarger]
      rfl
    · rw [if_neg hlarger, limited, hsize]

theorem decode_withBound (decoder : Decoder)
    (h : (decoder.withBound bound).config.lengthLimit ≤ (decoder.withBound larger).config.lengthLimit)
    (image : List UInt8) (start : Nat) (base : Option UInt64) :
    (decoder.withBound bound).decode image start base =
      limited (decoder.withBound bound).config.lengthLimit start
        ((decoder.withBound larger).decode image start base) := by
  by_cases hstart : start ≤ image.length
  · rw [decode_eq_place _ hstart, decode_eq_place _ hstart, readCode_withBound, readCode_withBound]
    exact place_withBound h start base
  · rw [decode_of_outside _ (by omega), decode_of_outside _ (by omega)]
    rfl

/-- A limit is a filter on what a decode under a larger one comes to. Whatever the bound, an instruction has at
least one byte and no more than the bound, or than one byte if that is zero, or than fifteen. -/
theorem decode_limited (calls : List (OpcodeKey × Descriptor)) (config : Config) (bound larger : Nat)
    (image : List UInt8) (start : Nat) (base : Option UInt64) :
    (({ config with lengthBound := bound } : Config).lengthLimit ≤
        ({ config with lengthBound := larger } : Config).lengthLimit →
      (Decoder.mk (.ofCalls calls) { config with lengthBound := bound }).decode image start base =
        limited ({ config with lengthBound := bound } : Config).lengthLimit start
          ((Decoder.mk (.ofCalls calls) { config with lengthBound := larger }).decode image start
            base)) ∧
    ∀ instruction,
      (Decoder.mk (.ofCalls calls) { config with lengthBound := bound }).decode image start base =
        .ok instruction → 1 ≤ instruction.size ∧ instruction.size ≤ min (max bound 1) 15 := by
  refine ⟨fun h => decode_withBound ⟨.ofCalls calls, config⟩ h image start base,
    fun instruction h => ?_⟩
  obtain ⟨-, -, hpos, -⟩ := decode_offset h
  have hsize := size_le_of_decode h
  unfold Config.lengthLimit maxInstructionLength at hsize
  dsimp only at hsize
  omega

theorem decode_limited_jump : ∃ jump,
    (Decoder.mk small.table { lengthBound := 64 }).decode [0x90, 0x66, 0xEB, 0x02] 1 none = .ok jump ∧
      1 ≤ jump.size ∧ jump.size ≤ 15 ∧
      (Decoder.mk small.table { lengthBound := 2 }).decode [0x90, 0x66, 0xEB, 0x02] 1 none =
        .error ⟨1, .tooLong 2⟩ ∧
      (Decoder.mk small.table { lengthBound := 0 }).decode [0x90, 0x66, 0xEB] 1 none =
        .error ⟨1, .truncated 2⟩ := by
  let jump : Instruction := {
    mnemonic := "jmp"
    shape := .transfer .jump (some (.relative 2 none))
    operands := [.immediate ⟨2, .byte, true⟩]
    encoding := [0x66, 0xEB, 0x02]
    offset := 1
    address := none
    prefixes := { operandSize := true } }
  have h : (Decoder.mk small.table { lengthBound := 64 }).decode [0x90, 0x66, 0xEB, 0x02] 1 none =
    .ok jump := by decide +kernel
  have hcut : (Decoder.mk small.table { lengthBound := 64 }).decode [0x90, 0x66, 0xEB] 1 none =
    .error ⟨1, .truncated 2⟩ := by decide +kernel
  obtain ⟨hpos, hsize⟩ := (decode_limited _ {} 64 64 _ _ _).2 jump h
  have hshort : (Decoder.mk small.table { lengthBound := 2 }).decode [0x90, 0x66, 0xEB, 0x02] 1 none =
      limited 2 1 ((Decoder.mk small.table { lengthBound := 64 }).decode [0x90, 0x66, 0xEB, 0x02] 1 none) :=
    (decode_limited _ {} 2 64 _ 1 none).1 (by decide)
  have hleast : (Decoder.mk small.table { lengthBound := 0 }).decode [0x90, 0x66, 0xEB] 1 none =
      limited 1 1 ((Decoder.mk small.table { lengthBound := 64 }).decode [0x90, 0x66, 0xEB] 1 none) :=
    (decode_limited _ {} 0 64 _ 1 none).1 (by decide)
  rw [h] at hshort
  rw [hcut] at hleast
  exact ⟨jump, h, hpos, hsize, hshort, hleast⟩

end IA32.Decoder
