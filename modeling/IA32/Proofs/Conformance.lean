import Mathlib.Data.List.Forall2
import IA32.Proofs.Addresses
import IA32.Proofs.Selection

set_option autoImplicit false

namespace IA32

open Reader

/-- The operands that each addressing mode asks for, by the opcode and the mode byte of the instruction. -/
inductive AddressingMode.Asks (opcode : UInt8) (modeByte : Option ModeByte) (type : OperandType) :
    AddressingMode → Operand → Prop where
  | rmRegister {form : OperandForm} {byte : ModeByte} {width : Width} :
      modeByte = some byte → byte.mode = .register → form ≠ .memoryOnly →
      Asks opcode modeByte type (.rm form) (.register (.general byte.rm width))
  | rmMemory {form : OperandForm} {byte : ModeByte} {address : MemoryAddress} {width : Width} :
      modeByte = some byte → byte.mode ≠ .register → form ≠ .registerOnly →
      Asks opcode modeByte type (.rm form) (.memory address width)
  | reg {byte : ModeByte} {width : Width} : modeByte = some byte →
      Asks opcode modeByte type .reg (.register (.general byte.reg width))
  | opcodeRegister {width : Width} :
      Asks opcode modeByte type .opcodeRegister (.register (.general (opcode.toNat % 8) width))
  | fixedRegister {number : Nat} {width : Width} :
      Asks opcode modeByte type (.fixedRegister number) (.register (.general number width))
  | one {constant : Immediate} : constant.value = 1 → constant.isSigned = false →
      Asks opcode modeByte type .one (.immediate constant)
  | immediate {constant : Immediate} : constant.isSigned = decide (type = .signExtendedByte) →
      Asks opcode modeByte type .immediate (.immediate constant)
  | relative {constant : Immediate} : constant.isSigned = true →
      Asks opcode modeByte type .relative (.immediate constant)
  | offset {address : MemoryAddress} {width : Width} :
      address.base = none → address.index = none → address.displacement ≠ .none →
      Asks opcode modeByte type .offset (.memory address width)

structure Operand.Conforms (operand : Operand) (context : Context) (opcode : UInt8)
    (modeByte : Option ModeByte) (spec : OperandSpec) : Prop where
  kind : spec.mode.Asks opcode modeByte spec.type operand
  width : operand.width =
    if spec.mode = .one ∨ spec.type = .signExtendedByte then .byte else context.width spec.type

theorem OperandSpec.type_ne_of_defect {spec : OperandSpec} (h : spec.defect? = none)
    (hmode : spec.mode ≠ .immediate) : spec.type ≠ .signExtendedByte := by
  obtain ⟨mode, type⟩ := spec
  rintro rfl
  cases mode <;> contradiction

theorem OperandSpec.number_lt_of_defect {number : Nat} {type : OperandType}
    (h : defect? ⟨.fixedRegister number, type⟩ = none) : number < 8 := by
  by_contra hnumber
  have hlarge : number > 7 := by omega
  cases type <;> simp [defect?, hlarge] at h

theorem Descriptor.spec_defect {descriptor : Descriptor} (h : descriptor.defect? = none) :
    ∀ spec ∈ descriptor.operands, spec.defect? = none := by
  unfold defect? at h
  split at h
  · contradiction
  split at h
  · contradiction
  split at h
  · contradiction
  split at h
  · contradiction
  · next hnone => exact List.findSome?_eq_none_iff.mp hnone

theorem MemoryAddress.eq_of_make? {base index : Option Register} {scale : Nat}
    {displacement : Displacement} {segment : Option Segment} {addressWidth : Width}
    {address : MemoryAddress}
    (h : make? base index scale displacement segment addressWidth = some address) :
    (base.isSome = true ∨ index.isSome = true ∨ displacement.isPresent = true) ∧
      address = ⟨base, index, if index.isSome then scale else 1, displacement, segment, addressWidth⟩ := by
  unfold make? at h
  split at h
  · contradiction
  next hnamed =>
    split at h
    · obtain ⟨⟩ := h
      refine ⟨?_, rfl⟩
      cases base <;> cases index <;> simp_all
    · contradiction

namespace Operand

variable {context : Context} {opcode : UInt8} {modeByte : Option ModeByte} {specs : List OperandSpec}
  {P : OperandSpec → Operand → Prop} {code rest : List UInt8}

theorem of_readFirstRm {rm : Option Operand}
    (hread : ∀ form type byte operand rest, ⟨.rm form, type⟩ ∈ specs → modeByte = some byte →
      (readRm context byte form (context.width type)).run code = .ok (operand, rest) →
      P ⟨.rm form, type⟩ operand)
    (h : (readFirstRm context modeByte specs).run code = .ok (rm, rest)) :
    ∀ spec operand, specs.find? (·.mode.usesRm) = some spec → rm = some operand → P spec operand := by
  induction specs with
  | nil =>
    intro spec operand hspec
    contradiction
  | cons spec specs ih =>
    obtain ⟨mode, type⟩ := spec
    cases mode with
    | rm form =>
      rintro _ operand ⟨⟩ rfl
      obtain ⟨byte, behind, hbyte, hrm⟩ := run_bind_eq_ok h
      obtain ⟨found, after, hfound, hpure⟩ := run_bind_eq_ok hrm
      cases modeByte with
      | none => contradiction
      | some held =>
        cases hbyte
        cases hpure
        exact hread form type byte _ _ List.mem_cons_self rfl hfound
    | reg | immediate | relative | opcodeRegister | fixedRegister | one | offset =>
      exact ih (fun form type byte operand rest hmem =>
        hread form type byte operand rest (List.mem_cons_of_mem _ hmem)) h

theorem ensures_forall₂_readAround {rm : Option Operand}
    (hrm : ∀ spec operand, specs.find? (·.mode.usesRm) = some spec → rm = some operand → P spec operand)
    (hplain : ∀ spec ∈ specs, spec.mode.usesRm = false →
      Ensures (readPlain context opcode modeByte spec) (P spec)) :
    Ensures (readAround context opcode modeByte rm specs) (List.Forall₂ P specs) := by
  induction specs generalizing rm with
  | nil => exact ensures_pure .nil
  | cons spec specs ih =>
    have hrest : ∀ other ∈ specs, other.mode.usesRm = false →
        Ensures (readPlain context opcode modeByte other) (P other) :=
      fun other hmem => hplain other (List.mem_cons_of_mem _ hmem)
    unfold readAround
    split
    · next huses =>
      cases rm with
      | none => exact ensures_invalid _
      | some operand =>
        have hspec : P spec operand := hrm spec operand (List.find?_cons_of_pos huses) rfl
        have hnone : ∀ other held, specs.find? (·.mode.usesRm) = some other → none = some held →
            P other held := by
          intro other held _ hheld
          contradiction
        exact ensures_bind (ih hnone hrest) fun operands hoperands =>
          ensures_pure (.cons hspec hoperands)
    · next huses =>
      have hskip : (spec :: specs).find? (·.mode.usesRm) = specs.find? (·.mode.usesRm) :=
        List.find?_cons_of_neg huses
      rw [hskip] at hrm
      refine ensures_bind (hplain spec List.mem_cons_self (eq_false_of_ne_true huses)) fun operand hspec => ?_
      exact ensures_bind (ih hrm hrest) fun operands hoperands =>
        ensures_pure (.cons hspec hoperands)

/-- What holds of each operand as it is read holds of the operands of an instruction, position by position. -/
theorem forall₂_of_readAll {operands : List Operand}
    (h : (readAll context opcode modeByte specs).run code = .ok (operands, rest))
    (hread : ∀ form type byte operand rest, ⟨.rm form, type⟩ ∈ specs → modeByte = some byte →
      (readRm context byte form (context.width type)).run code = .ok (operand, rest) →
      P ⟨.rm form, type⟩ operand)
    (hplain : ∀ spec ∈ specs, spec.mode.usesRm = false →
      Ensures (readPlain context opcode modeByte spec) (P spec)) :
    List.Forall₂ P specs operands := by
  obtain ⟨rm, behind, hrm, haround⟩ := run_bind_eq_ok h
  exact ensures_forall₂_readAround (of_readFirstRm hread hrm) hplain _ _ haround

theorem ensures_readRm_conforms {byte : ModeByte} (hbyte : modeByte = some byte) {type : OperandType}
    (htype : type ≠ .signExtendedByte) (form : OperandForm) :
    Ensures (readRm context byte form (context.width type))
      (·.Conforms context opcode modeByte ⟨.rm form, type⟩) := by
  have hwidth : ∀ operand : Operand, operand.width = context.width type →
      operand.width = if AddressingMode.rm form = .one ∨ type = .signExtendedByte then .byte
        else context.width type := by
    intro operand h
    rw [if_neg (by simp [htype]), h]
  unfold readRm
  split
  · next hregister =>
    split
    · exact ensures_invalid _
    · next hform =>
      have hnumber : byte.rm.val % 8 = byte.rm.val := Nat.mod_eq_of_lt byte.rm.isLt
      refine ensures_pure ⟨?_, hwidth _ rfl⟩
      rw [Register.ofNumber, hnumber]
      exact .rmRegister hbyte (of_decide_eq_true hregister) hform
  · next hmemory =>
    split
    · exact ensures_invalid _
    · next hform =>
      have hmode : byte.mode ≠ .register := fun h => hmemory (decide_eq_true h)
      exact ensures_bind (ensures_trivial _) fun address _ =>
        ensures_pure ⟨.rmMemory hbyte hmode hform, hwidth _ rfl⟩

theorem ensures_readPlain_conforms {spec : OperandSpec} (hspec : spec.defect? = none)
    (hplain : spec.mode.usesRm = false) :
    Ensures (readPlain context opcode modeByte spec) (·.Conforms context opcode modeByte spec) := by
  have htype := OperandSpec.type_ne_of_defect hspec
  obtain ⟨mode, type⟩ := spec
  have hwidth : mode ≠ .immediate → mode ≠ .one → ∀ operand : Operand,
      operand.width = context.width type →
      operand.width = if mode = .one ∨ type = .signExtendedByte then .byte else context.width type := by
    intro himmediate hone operand h
    rw [if_neg (by simp [hone, htype himmediate]), h]
  cases mode with
  | rm form => contradiction
  | reg =>
    cases modeByte with
    | none => exact ensures_invalid _
    | some byte =>
      have hnumber : byte.reg.val % 8 = byte.reg.val := Nat.mod_eq_of_lt byte.reg.isLt
      refine ensures_pure ⟨?_, hwidth (by simp) (by simp) _ rfl⟩
      rw [Register.ofNumber, hnumber]
      exact .reg rfl
  | opcodeRegister => exact ensures_pure ⟨.opcodeRegister, hwidth (by simp) (by simp) _ rfl⟩
  | fixedRegister number =>
    have hnumber : number % 8 = number := Nat.mod_eq_of_lt (OperandSpec.number_lt_of_defect hspec)
    refine ensures_pure ⟨?_, hwidth (by simp) (by simp) _ rfl⟩
    rw [Register.ofNumber, hnumber]
    exact .fixedRegister
  | one => exact ensures_pure ⟨.one rfl rfl, rfl⟩
  | immediate =>
    refine ensures_bind (ensures_trivial _) fun raw _ => ensures_pure ⟨.immediate ?_, ?_⟩
    · cases type <;> rfl
    · cases type <;> rfl
  | relative =>
    have hencoded : context.encodedWidth type = context.width type := by
      cases type with
      | signExtendedByte => exact absurd rfl (htype (by simp))
      | _ => rfl
    exact ensures_bind (ensures_trivial _) fun raw _ =>
      ensures_pure ⟨.relative rfl, hwidth (by simp) (by simp) _ hencoded⟩
  | offset =>
    refine ensures_bind (ensures_trivial _) fun displacement _ => ?_
    cases hmake : MemoryAddress.make? none none 1 displacement context.segment context.addressWidth with
    | none => exact ensures_invalid _
    | some address =>
      obtain ⟨hnamed, rfl⟩ := MemoryAddress.eq_of_make? hmake
      have hpresent : displacement.isPresent = true := by simpa using hnamed
      refine ensures_pure ⟨.offset rfl rfl ?_, hwidth (by simp) (by simp) _ rfl⟩
      rintro rfl
      contradiction

theorem conforms_of_readAll {operands : List Operand}
    (hspecs : ∀ spec ∈ specs, spec.defect? = none)
    (h : (readAll context opcode modeByte specs).run code = .ok (operands, rest)) :
    List.Forall₂ (fun spec operand => operand.Conforms context opcode modeByte spec) specs operands := by
  refine forall₂_of_readAll h ?_ fun spec hspec hplain =>
    ensures_readPlain_conforms (hspecs spec hspec) hplain
  intro form type byte operand rest hspec hbyte hread
  have htype := OperandSpec.type_ne_of_defect (hspecs _ hspec) (by simp)
  exact ensures_readRm_conforms hbyte htype form _ _ hread

end Operand

theorem Instruction.shapeOf_transfer {flow : Flow} (h : flow ≠ .ret) (operands : List Operand)
    (width : Width) (next : Option UInt64) :
    shapeOf (.transfer flow) operands width next =
      .transfer flow (operands.head?.map (destination width next)) := by
  cases flow with
  | ret => contradiction
  | jump | conditionalJump | call => rfl

namespace Table

variable {table : Table} {selection other : Selection} {code tail behind : List UInt8}

theorem Locates.lookup_eq (h : table.Locates code selection tail) :
    table.lookup selection.key = some selection.descriptor := by
  obtain ⟨-, -, -, hgrants, -, -⟩ := h
  exact hgrants.lookup_eq

/-- Code has no more than one selection at its front. -/
theorem Locates.unique (hcode : ∀ byte rest, code = byte :: rest → Prefix.isByte byte = false)
    (h : table.Locates code selection tail) (hother : table.Locates code other behind) :
    selection = other ∧ tail = behind := by
  rw [locates_iff hcode] at h hother
  rw [h] at hother
  exact Prod.mk.inj (Except.ok.inj hother)

end Table

namespace Decoder

variable {decoder : Decoder} {code : List UInt8} {reading : Reading}

theorem exists_locates_of_readCode (h : decoder.readCode code = .ok reading) : ∃ tail rest,
    decoder.table.Locates (code.dropWhile Prefix.isByte) reading.body.selection tail ∧
    (Operand.readAll (decoder.config.context reading.prefixes) reading.body.selection.key.opcode
      reading.body.selection.modeByte reading.body.selection.descriptor.operands).run tail =
        .ok (reading.body.operands, rest) ∧
    reading.prefixes = .ofRun (code.takeWhile Prefix.isByte) := by
  unfold readCode readBehind at h
  obtain ⟨⟨body, rest⟩, hread, rfl⟩ := map_eq_ok_iff.mp h
  obtain ⟨key, behind, hkey, hbody⟩ := run_bind_eq_ok hread
  obtain ⟨selection, tail, hselect, hoperands⟩ := run_bind_eq_ok hbody
  obtain ⟨operands, last, hall, hpure⟩ := run_bind_eq_ok hoperands
  cases hpure
  refine ⟨tail, _, ?_, hall, rfl⟩
  rw [Table.locates_iff fun _ _ => PrefixState.isByte_of_dropWhile, run_bind, hkey]
  exact hselect

end Decoder
end IA32
