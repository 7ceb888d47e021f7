import Mathlib.Data.Int.ModEq
import IA32.Proofs.CursorReads
import IA32.Proofs.Outcome

set_option autoImplicit false

namespace IA32

open Reader

/-- The number is congruent to the bytes of the field and among the numbers that so many bytes can say. -/
structure Represents (isSigned : Bool) (field : List UInt8) (number : Int) : Prop where
  congruent : number ≡ littleEndian field [ZMOD Nat.pow 2 (8 * field.length)]
  unsigned : isSigned = false → 0 ≤ number ∧ number < Nat.pow 2 (8 * field.length)
  signed : isSigned = true →
    -Nat.pow 2 (8 * field.length - 1) ≤ number ∧ number < Nat.pow 2 (8 * field.length - 1)

section

variable {field : List UInt8} {number : Int}

theorem represents_false_iff : Represents false field number ↔
    number = (littleEndian field : Int) % (Nat.pow 2 (8 * field.length) : Nat) := by
  have hpos : Nat.pow 2 (8 * field.length) ≠ 0 := (Nat.two_pow_pos _).ne'
  rw [eq_comm, Int.emod_eq_iff (Int.natCast_ne_zero.mpr hpos), Int.natAbs_natCast]
  constructor
  · intro h
    exact ⟨(h.unsigned rfl).1, (h.unsigned rfl).2, Int.modEq_iff_dvd.mp h.congruent.symm⟩
  · rintro ⟨hlower, hupper, hdvd⟩
    exact ⟨(Int.modEq_iff_dvd.mpr hdvd).symm, fun _ => ⟨hlower, hupper⟩, (nomatch ·)⟩

theorem represents_true_iff (h : 0 < field.length) : Represents true field number ↔
    number = Int.bmod (littleEndian field) (Nat.pow 2 (8 * field.length)) := by
  have hpos : 0 < Nat.pow 2 (8 * field.length) := Nat.two_pow_pos _
  have hbits : 8 * field.length = 8 * field.length - 1 + 1 := by omega
  have hhalf : Nat.pow 2 (8 * field.length) = 2 * Nat.pow 2 (8 * field.length - 1) :=
    (congrArg (Nat.pow 2) hbits).trans Nat.pow_succ'
  rw [eq_comm, Int.bmod_eq_iff hpos]
  constructor
  · intro hnumber
    obtain ⟨hlower, hupper⟩ := hnumber.signed rfl
    exact ⟨by omega, by omega, Int.modEq_iff_dvd.mp hnumber.congruent.symm⟩
  · rintro ⟨hlower, hupper, hdvd⟩
    refine ⟨(Int.modEq_iff_dvd.mpr hdvd).symm, (nomatch ·), fun _ => ?_⟩
    omega

end

namespace Displacement

def width? : Displacement → Option Width
  | none => .none
  | disp8 _ => some .byte
  | disp16 _ => some .word
  | disp32 _ => some .dword

theorem width?_ofBytes (width : Option Width) (bytes : List UInt8) :
    (ofBytes width bytes).width? = width := by
  cases width with
  | none => rfl
  | some width => cases width <;> rfl

end Displacement

namespace Operand

inductive Holds (config : Config) (prefixes : PrefixState) (spec : OperandSpec) (field : List UInt8) :
    Operand → Prop where
  /-- A distance and the sign-extended type are signed. -/
  | constant {constant : Immediate} : spec.mode ≠ .offset → constant.width.bytes = field.length →
      constant.isSigned = decide (spec.mode = .relative ∨ spec.type = .signExtendedByte) →
      (∀ number, Represents constant.isSigned field number ↔ number = constant.value) →
      Holds config prefixes spec field (.immediate constant)
  | offset {address : MemoryAddress} {width : Width} : spec.mode = .offset →
      address.base = none → address.index = none → address.scale = 1 →
      address.segment = prefixes.segment → address.addressWidth = config.addressWidth prefixes →
      address.displacement.width? = some width → width.bytes = field.length →
      (∀ number, Represents true field number ↔ number = address.displacement.value) →
      Holds config prefixes spec field (.memory address ((config.context prefixes).width spec.type))

variable {context : Context} {spec : OperandSpec} {field : List UInt8} {config : Config}
  {prefixes : PrefixState}

theorem fieldLength_pos (context : Context) (hfield : spec.mode.isField = true) :
    0 < context.sizes.fieldLength spec := by
  unfold Sizes.fieldLength
  cases hmode : spec.mode with
  | immediate | relative =>
    rw [← bytes_encodedWidth]
    exact Width.bytes_pos _
  | offset => exact Width.bytes_pos _
  | rm | reg | opcodeRegister | fixedRegister | one =>
    rw [hmode] at hfield
    contradiction

theorem holds_signed (hmode : spec.mode ≠ .offset)
    (hsigned : spec.mode = .relative ∨ spec.type = .signExtendedByte) {width : Width}
    (hlen : field.length = width.bytes) :
    Holds config prefixes spec field (.immediate (.signed (littleEndian field) width)) := by
  apply Holds.constant hmode hlen.symm (decide_eq_true hsigned).symm
  intro number
  have hpos : 0 < field.length := hlen ▸ width.bytes_pos
  change Represents true field number ↔ number = Int.bmod (littleEndian field) (Nat.pow 2 (8 * width.bytes))
  rw [represents_true_iff hpos, hlen]

theorem holds_unsigned (hmode : spec.mode ≠ .offset)
    (hunsigned : ¬ (spec.mode = .relative ∨ spec.type = .signExtendedByte)) {width : Width}
    (hlen : field.length = width.bytes) :
    Holds config prefixes spec field (.immediate (.unsigned (littleEndian field) width)) := by
  apply Holds.constant hmode hlen.symm (decide_eq_false hunsigned).symm
  intro number
  change Represents false field number ↔ number = (littleEndian field % Nat.pow 2 (8 * width.bytes) : Nat)
  rw [represents_false_iff, hlen, Int.natCast_mod]

theorem holds_offset (hmode : spec.mode = .offset)
    (hlen : field.length = (config.addressWidth prefixes).bytes) :
    (ofField (config.context prefixes) spec field).Holds config prefixes spec field := by
  unfold ofField
  rw [hmode]
  apply Holds.offset hmode rfl rfl rfl rfl rfl (Displacement.width?_ofBytes _ _) hlen.symm
  intro number
  have hpos : 0 < field.length := hlen ▸ Width.bytes_pos _
  have hpow : Nat.pow 256 field.length = Nat.pow 2 (8 * field.length) := (Nat.pow_mul 2 8 field.length).symm
  change _ ↔ number = (Displacement.ofBytes (some (config.addressWidth prefixes)) field).value
  rw [represents_true_iff hpos, Displacement.value_ofBytes hlen, hpow]

theorem holds_ofField (hfield : spec.mode.isField = true)
    (hlen : field.length = (config.context prefixes).sizes.fieldLength spec) :
    (ofField (config.context prefixes) spec field).Holds config prefixes spec field := by
  unfold Sizes.fieldLength at hlen
  cases hmode : spec.mode with
  | relative =>
    rw [hmode, ← bytes_encodedWidth] at hlen
    unfold ofField
    rw [hmode]
    exact holds_signed (by simp [hmode]) (.inl hmode) hlen
  | immediate =>
    rw [hmode, ← bytes_encodedWidth] at hlen
    unfold ofField immediateOf
    rw [hmode]
    dsimp only
    split
    · next htype => exact holds_signed (by simp [hmode]) (.inr htype) hlen
    · next htype => exact holds_unsigned (by simp [hmode]) (by simp [hmode, htype]) hlen
  | offset =>
    rw [hmode] at hlen
    exact holds_offset hmode hlen
  | rm | reg | opcodeRegister | fixedRegister | one =>
    rw [hmode] at hfield
    contradiction

/-- A value is read exactly if all bytes of its field are there: the cursor goes behind them, and the operand
holds what they say. -/
theorem read_value (config : Config) (prefixes : PrefixState) (image : List UInt8) (cursor : Cursor)
    {spec : OperandSpec} (hfield : spec.mode.isField = true) :
    let sizes : Sizes := ⟨config.operandWidth prefixes, config.addressWidth prefixes⟩
    let count := sizes.fieldLength spec
    let outcome := cursor.read image (readValue (config.context prefixes) spec)
    (cursor.pos + count ≤ image.length → ∃ operand,
        outcome = .ok (operand, { cursor with pos := cursor.pos + count }) ∧
          operand.Holds config prefixes spec ((image.drop cursor.pos).take count)) ∧
      (image.length < cursor.pos + count →
        outcome = .error ⟨cursor.start, .truncated (image.length - cursor.start)⟩) := by
  intro sizes count outcome
  have hwidth := config.addressWidth_context_ne prefixes
  have hpos : 0 < count := fieldLength_pos (config.context prefixes) hfield
  have htakes : Takes (readValue (config.context prefixes) spec) (image.drop cursor.pos) count _ :=
    takes_readValue hwidth hfield
  obtain ⟨hshort, henough⟩ := Cursor.read_of_takes htakes
  rw [List.length_drop] at hshort henough
  constructor
  · intro hinside
    obtain ⟨_, hread, rfl⟩ := henough (by omega)
    refine ⟨_, hread, holds_ofField hfield ?_⟩
    rw [List.length_take_of_le (by rw [List.length_drop]; omega)]
    rfl
  · intro hbeyond
    exact hshort (by omega)

theorem read_value_back :
    Cursor.read ⟨0, 2⟩ [0x66, 0xE8, 0xFB, 0xFF, 0x90]
        (readValue (Config.context {} { operandSize := true }) ⟨.relative, .variable⟩) =
      .ok (.immediate ⟨-5, .word, true⟩, ⟨0, 4⟩) ∧
    Holds {} { operandSize := true } ⟨.relative, .variable⟩ [0xFB, 0xFF]
      (.immediate ⟨-5, .word, true⟩) := by
  have hvalue : Cursor.read ⟨0, 2⟩ [0x66, 0xE8, 0xFB, 0xFF, 0x90]
      (readValue (Config.context {} { operandSize := true }) ⟨.relative, .variable⟩) =
    .ok (.immediate ⟨-5, .word, true⟩, ⟨0, 4⟩) := rfl
  have hfield : (OperandSpec.mk .relative .variable).mode.isField = true := rfl
  obtain ⟨operand, hread, hholds⟩ := (read_value {} { operandSize := true }
    [0x66, 0xE8, 0xFB, 0xFF, 0x90] ⟨0, 2⟩ hfield).1 (by decide)
  obtain ⟨rfl, -⟩ := Prod.mk.inj (Except.ok.inj (hvalue.symm.trans hread))
  exact ⟨hvalue, hholds⟩

end Operand
end IA32
