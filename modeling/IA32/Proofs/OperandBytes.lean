import IA32.Operand.Sequence
import IA32.Proofs.AddressForms
import IA32.Proofs.Encoding

set_option autoImplicit false

namespace IA32

open Reader

def Context.sizes (context : Context) : Sizes := ⟨context.operandWidth, context.addressWidth⟩

namespace AddressForm

variable {byte : ModeByte}

theorem length_word (hmode : byte.mode ≠ .register) :
    (word byte.mode.number byte.rm.val).length = byte.displacementLength .word none := by
  obtain ⟨mode, reg, rm⟩ := byte
  match rm with
  | 0 | 1 | 2 | 3 | 4 | 5 | 6 | 7 =>
    cases mode with
    | register => contradiction
    | withoutDisplacement | shortDisplacement | fullDisplacement => rfl

theorem length_dword (displacementOnly : DisplacementOnly) (hmode : byte.mode ≠ .register) :
    (dword displacementOnly byte.mode.number byte.rm.val).length =
      byte.displacementLength .dword none := by
  obtain ⟨mode, reg, rm⟩ := byte
  match rm with
  | 0 | 1 | 2 | 3 | 4 | 5 | 6 | 7 =>
    cases mode with
    | register => contradiction
    | withoutDisplacement | shortDisplacement | fullDisplacement => cases displacementOnly <;> rfl

theorem length_scaled (hmode : byte.mode ≠ .register) (hrm : byte.rm.val = 4) (scale : ScaleByte) :
    (scaled byte.mode.number scale.shift scale.index scale.base).length =
      1 + byte.displacementLength .dword (some scale) := by
  have hbaseless : byte.isBaseless .dword (some scale) = decide (scale.base.val = 5) := by
    simp [ModeByte.isBaseless, hrm]
  unfold length displacementLength scaled ModeByte.displacementLength
  rw [hbaseless]
  cases hbyte : byte.mode with
  | register => contradiction
  | withoutDisplacement => by_cases hbase : scale.base.val = 5 <;> simp [Mode.number, displacementOf, hbase]
  | shortDisplacement | fullDisplacement => rfl

theorem length_ofFields {addressWidth : Width} (hwidth : addressWidth ≠ .byte)
    (hmode : byte.mode ≠ .register) (displacementOnly : DisplacementOnly) (code : List UInt8) :
    (ofFields displacementOnly addressWidth byte.mode.number byte.rm.val (code.headD 0)).length =
      byte.addressLength addressWidth code.head? := by
  unfold ofFields
  cases addressWidth with
  | byte => contradiction
  | word =>
    rw [ModeByte.addressLength_of_not byte.hasScaleByte_word]
    exact length_word hmode
  | dword =>
    by_cases hrm : byte.rm.val = 4
    · have hscale := byte.hasScaleByte_dword_iff.mpr ⟨hmode, hrm⟩
      simp only [if_pos hrm, ModeByte.addressLength, if_pos hscale, ← MemoryAddress.scaled_ofByte]
      rw [length_scaled hmode hrm]
      cases code with
      | nil => exact congrArg (1 + ·) (byte.displacementLength_zero .dword)
      | cons next code => rfl
    · have hscale : byte.hasScaleByte .dword = false :=
        Bool.eq_false_iff.mpr fun h => hrm (byte.hasScaleByte_dword_iff.mp h).2
      simp only [if_neg hrm, ModeByte.addressLength_of_not hscale]
      exact length_dword displacementOnly hmode

end AddressForm

theorem MemoryAddress.takes_address {context : Context} {code : List UInt8} {byte : ModeByte}
    (hwidth : context.addressWidth ≠ .byte) (hmode : byte.mode ≠ .register) :
    Takes (read context byte) code (byte.addressLength context.addressWidth code.head?)
      fun _ => True := by
  rw [← AddressForm.length_ofFields hwidth hmode context.displacementOnly code]
  exact (takes_read hwidth byte code).weaken fun _ _ => trivial

namespace Operand

variable {context : Context} {code : List UInt8} {opcode : UInt8} {modeByte : Option ModeByte}
  {spec : OperandSpec} {specs : List OperandSpec}

theorem takes_readRm {byte : ModeByte} {form : OperandForm} (width : Width)
    (hwidth : context.addressWidth ≠ .byte) (hregister : byte.mode = .register → form ≠ .memoryOnly)
    (hmemory : byte.mode ≠ .register → form ≠ .registerOnly) :
    Takes (readRm context byte form width) code
      (byte.addressLength context.addressWidth code.head?) fun _ => True := by
  unfold readRm ModeByte.isRegister
  by_cases hmode : byte.mode = .register
  · rw [if_pos (decide_eq_true hmode), if_neg (hregister hmode), byte.addressLength_register hmode]
    exact takes_pure trivial
  · rw [if_neg (by simpa using hmode), if_neg (hmemory hmode)]
    exact takes_map (MemoryAddress.takes_address hwidth hmode) fun _ _ => trivial

theorem bytes_encodedWidth (context : Context) (type : OperandType) :
    (context.encodedWidth type).bytes = context.sizes.typeLength type := by
  cases type <;> rfl

def ofField (context : Context) (spec : OperandSpec) (field : List UInt8) : Operand :=
  match spec.mode with
  | .offset => .memory
      (AddressForm.address { displacement := some context.addressWidth } context context.addressWidth
        (.ofBytes (some context.addressWidth) field)) (context.width spec.type)
  | .relative => .immediate (.signed (littleEndian field) (context.encodedWidth spec.type))
  | _ => .immediate (immediateOf spec.type (littleEndian field) (context.encodedWidth spec.type))

theorem takes_readValue (hwidth : context.addressWidth ≠ .byte) (hfield : spec.mode.isField = true) :
    Takes (readValue context spec) code (context.sizes.fieldLength spec)
      (· = ofField context spec (code.take (context.sizes.fieldLength spec))) := by
  unfold readValue ofField Sizes.fieldLength
  cases hmode : spec.mode with
  | immediate | relative =>
    rw [← bytes_encodedWidth]
    apply takes_map (takes_number _ _)
    rintro _ rfl
    rfl
  | offset =>
    dsimp only
    rw [Displacement.readFull_eq_readAs hwidth]
    apply takes_bind_done (Displacement.takes_readAs _ _)
    rintro _ rfl
    have hpresent := Displacement.isPresent_ofBytes context.addressWidth
    simp only [MemoryAddress.make?, hpresent]
    exact takes_pure rfl
  | rm | reg | opcodeRegister | fixedRegister | one =>
    rw [hmode] at hfield
    contradiction

theorem readPlain_of_field (h : spec.mode.isField = true) :
    readPlain context opcode modeByte spec = readValue context spec := by
  unfold readPlain
  cases hmode : spec.mode with
  | immediate | relative | offset | rm => rfl
  | reg | opcodeRegister | fixedRegister | one =>
    rw [hmode] at h
    contradiction

theorem takes_readPlain (hwidth : context.addressWidth ≠ .byte) (hplain : spec.mode.usesRm = false)
    (hbyte : spec.mode.usesModeByte = true → modeByte.isSome = true) :
    Takes (readPlain context opcode modeByte spec) code (context.sizes.fieldLength spec)
      fun _ => True := by
  by_cases hfield : spec.mode.isField = true
  · rw [readPlain_of_field hfield]
    exact (takes_readValue hwidth hfield).weaken fun _ _ => trivial
  · rw [Sizes.fieldLength_of_not (Bool.eq_false_iff.mpr hfield)]
    unfold readPlain
    cases hmode : spec.mode with
    | reg =>
      obtain ⟨byte, rfl⟩ := Option.isSome_iff_exists.mp (hbyte (by rw [hmode]; rfl))
      exact takes_pure trivial
    | opcodeRegister | fixedRegister | one => exact takes_pure trivial
    | rm =>
      rw [hmode] at hplain
      contradiction
    | immediate | relative | offset =>
      rw [hmode] at hfield
      contradiction

theorem readRm_of_misfit {byte : ModeByte} {form : OperandForm} {type : OperandType}
    {fault : OperandFault} (width : Width) (h : Misfit [⟨.rm form, type⟩] byte fault) :
    readRm context byte form width = .invalid fault := by
  cases h with
  | registerForm hmode hspec =>
    obtain ⟨⟩ := List.mem_singleton.mp hspec
    simp [readRm, ModeByte.isRegister, hmode]
  | memoryForm hmode hspec =>
    obtain ⟨⟩ := List.mem_singleton.mp hspec
    simp [readRm, ModeByte.isRegister, hmode]

theorem takes_readFirstRm (hwidth : context.addressWidth ≠ .byte)
    (hbyte : ∀ spec ∈ specs, spec.mode.usesModeByte = true → modeByte.isSome = true)
    (hfits : Fits specs modeByte) :
    Takes (readFirstRm context modeByte specs) code
      ((rmByte specs modeByte).elim 0 (·.addressLength context.addressWidth code.head?))
      fun rm => rm.isSome = specs.any (·.mode.usesRm) := by
  induction specs with
  | nil => exact takes_pure rfl
  | cons spec specs ih =>
    obtain ⟨mode, type⟩ := spec
    cases mode with
    | rm form =>
      obtain ⟨byte, rfl⟩ := Option.isSome_iff_exists.mp (hbyte _ List.mem_cons_self rfl)
      have hregister : byte.mode = .register → form ≠ .memoryOnly := by
        rintro hmode rfl
        exact hfits byte _ rfl (.registerForm hmode List.mem_cons_self)
      have hmemory : byte.mode ≠ .register → form ≠ .registerOnly := by
        rintro hmode rfl
        exact hfits byte _ rfl (.memoryForm hmode List.mem_cons_self)
      exact takes_map (takes_readRm (context.width type) hwidth hregister hmemory) fun _ _ => rfl
    | reg | opcodeRegister | fixedRegister | one | immediate | relative | offset =>
      exact ih (fun other hother => hbyte other (List.mem_cons_of_mem _ hother)) hfits.of_cons

theorem readFirstRm_of_misfit {byte : ModeByte} {fault : OperandFault}
    (hone : specs.countP (·.mode.usesRm) ≤ 1) (h : Misfit specs byte fault) :
    readFirstRm context (some byte) specs = .invalid fault := by
  induction specs with
  | nil => cases h <;> contradiction
  | cons spec specs ih =>
    obtain ⟨mode, type⟩ := spec
    cases mode with
    | rm form =>
      -- With one r/m operand at most, the one at fault is this one.
      have hrest : ∀ other ∈ specs, other.mode.usesRm = false := by
        simpa [AddressingMode.usesRm] using hone
      have hhead : Misfit [⟨.rm form, type⟩] byte fault := by
        rcases h.head_or_tail with hhead | htail
        · exact hhead
        · obtain ⟨other, hmem, hrm⟩ := htail.exists_usesRm
          rw [hrest other hmem] at hrm
          contradiction
      change (readRm context byte form (context.width type) >>= fun operand => pure (some operand)) = _
      rw [readRm_of_misfit _ hhead]
      rfl
    | reg | opcodeRegister | fixedRegister | one | immediate | relative | offset =>
      apply ih
      · simpa [List.countP_cons, AddressingMode.usesRm] using hone
      · rcases h.head_or_tail with hhead | htail
        · obtain ⟨other, hmem, hrm⟩ := hhead.exists_usesRm
          obtain rfl := List.mem_singleton.mp hmem
          contradiction
        · exact htail

theorem takes_readAround {rm : Option Operand} (hwidth : context.addressWidth ≠ .byte)
    (hone : specs.countP (·.mode.usesRm) ≤ rm.isSome.toNat)
    (hbyte : ∀ spec ∈ specs, spec.mode.usesModeByte = true → modeByte.isSome = true) :
    Takes (readAround context opcode modeByte rm specs) code (context.sizes.fieldsLength specs)
      (·.length = specs.length) := by
  induction specs generalizing rm code with
  | nil => exact takes_pure rfl
  | cons spec specs ih =>
    have hrest : ∀ other ∈ specs, other.mode.usesModeByte = true → modeByte.isSome = true :=
      fun other hother => hbyte other (List.mem_cons_of_mem _ hother)
    have hlen : context.sizes.fieldsLength (spec :: specs) =
        context.sizes.fieldLength spec + context.sizes.fieldsLength specs := rfl
    have hcount : (spec :: specs).countP (·.mode.usesRm) =
        specs.countP (·.mode.usesRm) + if spec.mode.usesRm = true then 1 else 0 := List.countP_cons
    rw [hcount] at hone
    unfold readAround
    -- An r/m operand has been read before any field: here it only takes its place, which leaves none to
    -- the operands behind it.
    by_cases hspec : spec.mode.usesRm = true
    · have hfield : spec.mode.isField = false := by
        cases hmode : spec.mode <;> simp_all [AddressingMode.usesRm, AddressingMode.isField]
      rw [if_pos hspec] at hone ⊢
      cases rm with
      | none => contradiction
      | some operand =>
        rw [hlen, Sizes.fieldLength_of_not hfield, Nat.zero_add]
        refine takes_map (ih ?_ hrest) fun operands h => ?_
        · simpa using hone
        · simpa using h
    · rw [if_neg hspec] at hone ⊢
      rw [hlen]
      have hplain := Bool.eq_false_iff.mpr hspec
      refine takes_bind (takes_readPlain hwidth hplain (hbyte spec List.mem_cons_self)) fun _ _ => ?_
      refine takes_map (ih hone hrest) fun operands h => ?_
      simpa using h

theorem takes_readAll (hwidth : context.addressWidth ≠ .byte)
    (hone : specs.countP (·.mode.usesRm) ≤ 1)
    (hbyte : ∀ spec ∈ specs, spec.mode.usesModeByte = true → modeByte.isSome = true)
    (hfits : Fits specs modeByte) :
    Takes (readAll context opcode modeByte specs) code
      (context.sizes.tailLength specs modeByte code.head?) (·.length = specs.length) := by
  refine takes_bind (takes_readFirstRm hwidth hbyte hfits) fun rm hrm => ?_
  apply takes_readAround hwidth ?_ hbyte
  cases hany : specs.any (·.mode.usesRm) with
  | true => simpa [hrm, hany] using hone
  | false =>
    rw [List.countP_eq_zero.mpr (List.any_eq_false.mp hany)]
    exact Nat.zero_le _

theorem readAll_of_misfit {byte : ModeByte} {fault : OperandFault}
    (hone : specs.countP (·.mode.usesRm) ≤ 1) (h : Misfit specs byte fault) :
    readAll context opcode (some byte) specs = .invalid fault := by
  unfold readAll
  rw [readFirstRm_of_misfit hone h]
  rfl

end Operand
end IA32
