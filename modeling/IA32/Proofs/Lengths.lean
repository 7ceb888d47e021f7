import IA32.Proofs.Growth

set_option autoImplicit false

namespace IA32

theorem Width.bytes_le (width : Width) : width.bytes ≤ 4 := by cases width <;> decide

theorem ModeByte.addressLength_le (byte : ModeByte) (address : Width) (next : Option UInt8) :
    byte.addressLength address next ≤ 5 := by
  have hdisplacement : ∀ scale, byte.displacementLength address scale ≤ 4 := by
    intro scale
    unfold displacementLength
    split
    · omega
    · omega
    · exact address.bytes_le
    · have hbytes := address.bytes_le
      split <;> omega
  unfold addressLength
  split
  · exact Nat.add_le_add_left (hdisplacement _) 1
  · exact (hdisplacement _).trans (Nat.le_succ 4)

namespace Sizes

def widest : Sizes := ⟨.dword, .dword⟩

theorem fieldLength_le (sizes : Sizes) (spec : OperandSpec) :
    sizes.fieldLength spec ≤ widest.fieldLength spec := by
  have htype : ∀ type, sizes.typeLength type ≤ widest.typeLength type := by
    intro type
    cases type with
    | byte | word | dword | signExtendedByte => exact Nat.le_refl _
    | _ => exact Width.bytes_le _
  unfold fieldLength
  cases spec.mode with
  | immediate | relative => exact htype _
  | offset => exact Width.bytes_le _
  | rm | reg | opcodeRegister | fixedRegister | one => exact Nat.le_refl 0

theorem fieldsLength_le (sizes : Sizes) (specs : List OperandSpec) :
    sizes.fieldsLength specs ≤ widest.fieldsLength specs := by
  induction specs with
  | nil => exact Nat.le_refl 0
  | cons spec specs ih => exact Nat.add_le_add (sizes.fieldLength_le spec) ih

theorem widest_fieldLength_le (spec : OperandSpec) : widest.fieldLength spec ≤ 4 := by
  unfold fieldLength
  cases spec.mode with
  | immediate | relative => cases spec.type <;> decide
  | offset => exact Nat.le_refl 4
  | rm | reg | opcodeRegister | fixedRegister | one => exact Nat.zero_le 4

theorem widest_fieldsLength_add_le (specs : List OperandSpec) :
    widest.fieldsLength specs + 4 * specs.countP (·.mode.usesRm) ≤ 4 * specs.length := by
  induction specs with
  | nil => exact Nat.le_refl 0
  | cons spec specs ih =>
    have hspec := widest_fieldLength_le spec
    have hsum : widest.fieldsLength (spec :: specs) =
        widest.fieldLength spec + widest.fieldsLength specs := rfl
    rw [hsum, List.countP_cons, List.length_cons]
    split
    · next huses =>
      have hfield : spec.mode.isField = false := by
        cases hmode : spec.mode <;> simp_all [AddressingMode.usesRm, AddressingMode.isField]
      rw [fieldLength_of_not hfield]
      omega
    · omega

theorem widest_fieldsLength_le (specs : List OperandSpec) :
    widest.fieldsLength specs ≤ 4 * specs.length :=
  Nat.le_of_add_right_le (widest_fieldsLength_add_le specs)

theorem foldr_map_fieldLength (sizes : Sizes) (specs : List OperandSpec) :
    (specs.map sizes.fieldLength).foldr (· + ·) 0 = sizes.fieldsLength specs := by
  rw [List.foldr_map]
  rfl

end Sizes

def OpcodeMap.spelledLength : OpcodeMap → Nat
  | primary => 1
  | secondary => 2

theorem Descriptor.length_operands_le {descriptor : Descriptor} (h : descriptor.defect? = none) :
    descriptor.operands.length ≤ maxOperands := by
  unfold defect? at h
  split at h
  · contradiction
  split at h
  · contradiction
  · omega

namespace OpcodeKey

def headLength (key : OpcodeKey) (descriptor : Descriptor) : Nat :=
  key.map.spelledLength + (key.extension.isSome || descriptor.needsModeByte).toNat

theorem headLength_le (key : OpcodeKey) (descriptor : Descriptor) : key.headLength descriptor ≤ 3 := by
  have hmap : key.map.spelledLength ≤ 2 := by cases key.map <;> decide
  exact Nat.add_le_add hmap (Bool.toNat_le _)

def longest (key : OpcodeKey) (descriptor : Descriptor) : Nat :=
  key.headLength descriptor + (descriptor.operands.any (·.mode.usesRm)).toNat * 5 +
    Sizes.widest.fieldsLength descriptor.operands

/-- Opcode and mode byte take three bytes, the address of an r/m operand five, and fields four each; of the
three operands one may stand in the r/m field. -/
theorem longest_le (key : OpcodeKey) {descriptor : Descriptor}
    (h : descriptor.defect? = none) : key.longest descriptor ≤ 16 := by
  have hhead := key.headLength_le descriptor
  have hfields := Sizes.widest_fieldsLength_add_le descriptor.operands
  have hcount := Descriptor.length_operands_le h
  have hrm : (descriptor.operands.any (·.mode.usesRm)).toNat ≤
      descriptor.operands.countP (·.mode.usesRm) := by
    cases hany : descriptor.operands.any (·.mode.usesRm) with
    | false => exact Nat.zero_le _
    | true => exact List.countP_pos_iff.mpr (List.any_eq_true.mp hany)
  have hone := Bool.toNat_le (descriptor.operands.any (·.mode.usesRm))
  unfold Descriptor.maxOperands at hcount
  unfold longest
  omega

end OpcodeKey

theorem Spells.length_bytes {bytes : List UInt8} {map : OpcodeMap} {opcode : UInt8}
    (h : Spells bytes map opcode) : bytes.length = map.spelledLength := by
  cases h with
  | primary | secondary => rfl

theorem Sizes.tailLength_le (sizes : Sizes) (specs : List OperandSpec) (modeByte : Option ModeByte)
    (next : Option UInt8) :
    sizes.tailLength specs modeByte next ≤
      (specs.any (·.mode.usesRm)).toNat * 5 + widest.fieldsLength specs := by
  refine Nat.add_le_add ?_ (sizes.fieldsLength_le specs)
  unfold rmByte
  cases specs.any (·.mode.usesRm) with
  | false => exact Nat.le_refl 0
  | true =>
    cases modeByte with
    | none => exact Nat.zero_le 5
    | some byte => exact byte.addressLength_le sizes.address next

namespace Table

variable {table : Table} {code tail : List UInt8} {modeByte : Option ModeByte} {descriptor : Descriptor}
  {selection : Selection}

theorem Grants.headLength_eq (h : table.Grants selection) :
    selection.key.headLength selection.descriptor =
      selection.key.map.spelledLength + selection.modeByte.isSome.toNat := by
  cases h with
  | plain _ hneeds => simp [OpcodeKey.headLength, hneeds]
  | withModeByte _ hneeds => simp [OpcodeKey.headLength, hneeds]
  | member => rfl

theorem Locates.length_eq (h : table.Locates code selection tail) :
    code.length = selection.key.headLength selection.descriptor + tail.length := by
  obtain ⟨bytes, byte, hspells, hgrants, hbyte, rfl⟩ := h
  have hone : byte.toList.length = selection.modeByte.isSome.toNat := by
    rw [← hbyte]
    cases byte <;> rfl
  rw [hgrants.headLength_eq, List.length_append, List.length_append, hspells.length_bytes, hone]
  omega

theorem Reaches.length_eq (h : table.Reaches code modeByte descriptor tail) : ∃ key,
    table.lookup key = some descriptor ∧ code.length = key.headLength descriptor + tail.length := by
  obtain ⟨key, hlocates⟩ := h.exists_locates
  have hlen := hlocates.length_eq
  obtain ⟨_, _, -, hgrants, -⟩ := hlocates
  exact ⟨key, hgrants.lookup_eq, hlen⟩

theorem Reaches.length_le {sizes : Sizes} (h : table.Reaches code modeByte descriptor tail)
    (hlen : tail.length ≤ sizes.tailLength descriptor.operands modeByte tail.head?) : ∃ key,
    table.lookup key = some descriptor ∧ code.length ≤ key.longest descriptor := by
  obtain ⟨key, hlookup, hcode⟩ := h.length_eq
  have hbound := sizes.tailLength_le descriptor.operands modeByte tail.head?
  refine ⟨key, hlookup, ?_⟩
  unfold OpcodeKey.longest
  omega

set_option maxRecDepth 10000 in
theorem longest_registrations_le : ∀ entry ∈ Builtin.registrations, entry.1.longest entry.2 ≤ 11 := by
  decide +kernel

theorem longest_builtin_le {key : OpcodeKey} (h : builtin.lookup key = some descriptor) :
    key.longest descriptor ≤ 11 :=
  longest_registrations_le _ ((lookup_builtin_iff key descriptor).mp h)

end Table
end IA32
