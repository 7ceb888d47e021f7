import IA32.Proofs.Conformance
import IA32.Proofs.Liveness
import IA32.Proofs.PrefixScan

set_option autoImplicit false

namespace IA32

open Reader

namespace PrefixState

theorem ofRun_insert (before after : List UInt8) :
    ofRun (before ++ 0x66 :: after) = { ofRun (before ++ after) with operandSize := true } := by
  have hone : ofRun [0x66] = { operandSize := true } := rfl
  rw [← List.singleton_append, ofRun_append, ofRun_append, ofRun_append, hone]
  simp [override]

end PrefixState

inductive Operand.Alike : Operand → Operand → Prop where
  | register {number : Nat} {width other : Width} :
      Alike (.register (.general number width)) (.register (.general number other))
  | immediate {constant other : Immediate} : constant.isSigned = other.isSigned →
      Alike (.immediate constant) (.immediate other)
  | memory {address other : MemoryAddress} {width otherWidth : Width} :
      Alike (.memory address width) (.memory other otherWidth)

inductive Shape.Alike : Shape → Shape → Prop where
  | noOperand : Alike .noOperand .noOperand
  | operation : Alike .operation .operation
  | withoutDestination {flow : Flow} : Alike (.transfer flow none) (.transfer flow none)
  | relative {flow : Flow} {displacement other : Int} {target otherTarget : Option UInt64} :
      Alike (.transfer flow (some (.relative displacement target)))
        (.transfer flow (some (.relative other otherTarget)))
  | indirect {flow : Flow} {operand other : Operand} :
      Alike (.transfer flow (some (.indirect operand))) (.transfer flow (some (.indirect other)))

/-- What becomes of the operand of a specification as the operand size goes from one width to another. -/
structure Operand.Resized (spec : OperandSpec) (old new : Width) (operand other : Operand) : Prop where
  alike : operand.Alike other
  address : spec.mode.usesRm = true → ∀ address width, operand = .memory address width →
    other = .memory address other.width
  kept : spec.type = .byte ∨ spec.type = .word ∨ spec.type = .dword → other.width = operand.width
  switched : spec.type = .variable → spec.mode ≠ .one → operand.width = old ∧ other.width = new
  one : spec.mode = .one → operand.width = .byte ∧ other.width = .byte

def OperandSpec.isVariableField (spec : OperandSpec) : Bool :=
  (spec.mode = .immediate || spec.mode = .relative) && spec.type = .variable

/-- How many more bytes the operands take in the code as the operand size goes from one width to another. -/
def Descriptor.growth (descriptor : Descriptor) (old new : Width) : Int :=
  descriptor.operands.foldr (fun spec growth =>
    (if spec.isVariableField then (new.bytes - old.bytes : Int) else 0) + growth) 0

structure Instruction.Resized (descriptor : Descriptor) (old new : Width)
    (instruction again : Instruction) : Prop where
  mnemonic : descriptor.wordMnemonic = none → again.mnemonic = instruction.mnemonic
  shape : instruction.shape.Alike again.shape
  length : instruction.operands.length = descriptor.operands.length
  lengthAgain : again.operands.length = descriptor.operands.length
  operands : ∀ (position : Nat) (spec : OperandSpec) (operand other : Operand),
    descriptor.operands[position]? = some spec → instruction.operands[position]? = some operand →
      again.operands[position]? = some other → Operand.Resized spec old new operand other
  prefixes : again.prefixes = { instruction.prefixes with operandSize := true }
  size : (again.size : Int) = instruction.size + 1 + descriptor.growth old new

theorem AddressingMode.Asks.alike {mode : AddressingMode} {opcode : UInt8} {modeByte : Option ModeByte}
    {type : OperandType} {operand other : Operand} (h : mode.Asks opcode modeByte type operand)
    (hother : mode.Asks opcode modeByte type other) : operand.Alike other := by
  cases h with
  | rmRegister hbyte hmode hform =>
    cases hother with
    | rmRegister hsame =>
      cases hbyte.symm.trans hsame
      exact .register
    | rmMemory hsame hmemory =>
      cases hbyte.symm.trans hsame
      contradiction
  | rmMemory hbyte hmode hform =>
    cases hother with
    | rmRegister hsame hregister =>
      cases hbyte.symm.trans hsame
      contradiction
    | rmMemory => exact .memory
  | reg hbyte =>
    cases hother with
    | reg hsame =>
      cases hbyte.symm.trans hsame
      exact .register
  | opcodeRegister =>
    cases hother
    exact .register
  | fixedRegister =>
    cases hother
    exact .register
  | one _ hsigned =>
    cases hother with
    | one _ hsame => exact .immediate (hsigned.trans hsame.symm)
  | immediate hsigned =>
    cases hother with
    | immediate hsame => exact .immediate (hsigned.trans hsame.symm)
  | relative hsigned =>
    cases hother with
    | relative hsame => exact .immediate (hsigned.trans hsame.symm)
  | offset =>
    cases hother
    exact .memory

namespace Operand

def withWidth (width : Width) : Operand → Operand
  | .register (.general number _) => .register (.general number width)
  | .memory address _ => .memory address width
  | operand => operand

variable {context : Context} {opcode : UInt8} {modeByte : Option ModeByte} {specs : List OperandSpec}
  {spec : OperandSpec} {operand other : Operand} {tail rest : List UInt8} {operandWidth : Width}

/-- The operand size has no part in where an r/m operand is. -/
theorem readRm_withWidth (context : Context) (byte : ModeByte) (form : OperandForm)
    (operandWidth width other : Width) :
    readRm { context with operandWidth } byte form other =
      withWidth other <$> readRm context byte form width := by
  have haddress : MemoryAddress.read { context with operandWidth } byte =
    MemoryAddress.read context byte := rfl
  unfold readRm
  rw [haddress]
  split
  · split <;> rfl
  · split
    · rfl
    · simp only [map_bind, map_pure]
      rfl

/-- The operand is what its specification asks for, and if that is an r/m operand it was read from the front
of the tail. -/
structure ReadFrom (operand : Operand) (context : Context) (opcode : UInt8) (modeByte : Option ModeByte)
    (tail : List UInt8) (spec : OperandSpec) : Prop where
  conforms : operand.Conforms context opcode modeByte spec
  rm : spec.mode.usesRm = true → ∃ byte form rest, modeByte = some byte ∧ spec.mode = .rm form ∧
    (readRm context byte form (context.width spec.type)).run tail = .ok (operand, rest)

theorem readFrom_of_readAll {operands : List Operand} (hspecs : ∀ spec ∈ specs, spec.defect? = none)
    (h : (readAll context opcode modeByte specs).run tail = .ok (operands, rest)) :
    List.Forall₂ (fun spec operand => operand.ReadFrom context opcode modeByte tail spec) specs operands := by
  refine forall₂_of_readAll h ?_ ?_
  · intro form type byte operand rest hspec hbyte hread
    have htype := OperandSpec.type_ne_of_defect (hspecs _ hspec) (by simp)
    exact ⟨ensures_readRm_conforms hbyte htype form _ _ hread,
      fun _ => ⟨byte, form, rest, hbyte, rfl, hread⟩⟩
  · intro spec hspec hplain code read hread
    refine ⟨ensures_readPlain_conforms (hspecs spec hspec) hplain code read hread, fun huses => ?_⟩
    rw [hplain] at huses
    contradiction

theorem ReadFrom.resized (h : operand.ReadFrom context opcode modeByte tail spec)
    (hother : other.ReadFrom { context with operandWidth } opcode modeByte tail spec) :
    Resized spec context.operandWidth operandWidth operand other where
  alike := h.conforms.kind.alike hother.conforms.kind
  address huses address width hmemory := by
    -- Fields may be of other lengths in the two, but the r/m operand stands in front of them all.
    obtain ⟨byte, form, rest, hbyte, hmode, hread⟩ := h.rm huses
    obtain ⟨again, form, rest, hagain, hform, hreadAgain⟩ := hother.rm huses
    cases hbyte.symm.trans hagain
    cases hmode.symm.trans hform
    rw [readRm_withWidth context byte form operandWidth (context.width spec.type), run_map,
      hread] at hreadAgain
    cases hreadAgain
    rw [hmemory]
    rfl
  kept htype := by
    rw [h.conforms.width, hother.conforms.width]
    rcases htype with htype | htype | htype <;> rw [htype] <;> rfl
  switched htype hmode := by
    have hneither : ¬ (spec.mode = .one ∨ spec.type = .signExtendedByte) := by simp [htype, hmode]
    rw [h.conforms.width, hother.conforms.width, if_neg hneither, if_neg hneither, htype]
    exact ⟨rfl, rfl⟩
  one hmode := by
    rw [h.conforms.width, hother.conforms.width, if_pos (.inl hmode), if_pos (.inl hmode)]
    exact ⟨rfl, rfl⟩

theorem alike_of_readFrom {operands others : List Operand} (h : List.Forall₂
    (fun spec operand => ReadFrom operand context opcode modeByte tail spec) specs operands)
    (hothers : List.Forall₂ (fun spec operand =>
      ReadFrom operand { context with operandWidth } opcode modeByte tail spec) specs others) :
    List.Forall₂ Alike operands others := by
  induction h generalizing others with
  | nil =>
    cases hothers
    exact .nil
  | cons hoperand _ ih =>
    cases hothers with
    | cons hother hothers => exact .cons (hoperand.resized hother).alike (ih hothers)

end Operand

theorem Instruction.shapeOf_alike {operands others : List Operand}
    (h : List.Forall₂ Operand.Alike operands others) (kind : InstructionClass) (width other : Width)
    (next again : Option UInt64) :
    (shapeOf kind operands width next).Alike (shapeOf kind others other again) := by
  cases kind with
  | general =>
    cases h with
    | nil => exact .noOperand
    | cons => exact .operation
  | transfer flow =>
    by_cases hret : flow = .ret
    · rw [hret]
      exact .withoutDestination
    · rw [shapeOf_transfer hret, shapeOf_transfer hret]
      cases h with
      | nil => exact .withoutDestination
      | cons hfirst =>
        cases hfirst with
        | immediate => exact .relative
        | register | memory => exact .indirect

theorem Descriptor.mnemonicFor_of_none {descriptor : Descriptor} (h : descriptor.wordMnemonic = none)
    (width : Width) : descriptor.mnemonicFor width = descriptor.mnemonic := by
  cases width with
  | word => exact congrArg (·.getD descriptor.mnemonic) h
  | byte | dword => rfl

theorem Sizes.fieldsLength_operand (sizes : Sizes) (operand : Width) (descriptor : Descriptor) :
    (({ sizes with operand } : Sizes).fieldsLength descriptor.operands : Int) =
      sizes.fieldsLength descriptor.operands + descriptor.growth sizes.operand operand := by
  unfold Descriptor.growth
  induction descriptor.operands with
  | nil => rfl
  | cons spec specs ih =>
    have hspec : (({ sizes with operand } : Sizes).fieldLength spec : Int) = sizes.fieldLength spec +
        if spec.isVariableField then (operand.bytes - sizes.operand.bytes : Int) else 0 := by
      have hvariable : (operand.bytes : Int) =
          sizes.operand.bytes + (operand.bytes - sizes.operand.bytes) := by omega
      obtain ⟨mode, type⟩ := spec
      unfold fieldLength typeLength OperandSpec.isVariableField
      cases mode <;> cases type <;> simp [← hvariable]
    change ((({ sizes with operand } : Sizes).fieldLength spec +
      ({ sizes with operand } : Sizes).fieldsLength specs : Nat) : Int) =
        ((sizes.fieldLength spec + sizes.fieldsLength specs : Nat) : Int) + _
    rw [List.foldr_cons]
    push_cast
    omega

namespace Config

theorem context_insert (config : Config) (before after : List UInt8) :
    config.context (.ofRun (before ++ 0x66 :: after)) =
      { config.context (.ofRun (before ++ after)) with operandWidth := config.codeSize.width true } := by
  rw [PrefixState.ofRun_insert]
  rfl

theorem operandWidth_context_of_not_mem (config : Config) {run : List UInt8} (h : 0x66 ∉ run) :
    (config.context (.ofRun run)).operandWidth = config.codeSize.width false := by
  have hflag : (PrefixState.ofRun run).operandSize = false := by
    rw [PrefixState.operandSize_ofRun]
    exact decide_eq_false h
  exact congrArg config.codeSize.width hflag

theorem sizes_insert (config : Config) (before after : List UInt8) :
    config.sizes (before ++ 0x66 :: after) =
      { config.sizes (before ++ after) with operand := config.codeSize.width true } := by
  simp [sizes]

theorem sizes_operand_of_not_mem (config : Config) {run : List UInt8} (h : 0x66 ∉ run) :
    (config.sizes run).operand = config.codeSize.width false :=
  congrArg config.codeSize.width (decide_eq_false h)

end Config

theorem isByte_of_mem_insert {before after : List UInt8}
    (h : ∀ byte ∈ before ++ after, Prefix.isByte byte = true) :
    ∀ byte ∈ before ++ 0x66 :: after, Prefix.isByte byte = true := by
  intro byte hmem
  rcases List.mem_append.mp hmem with hbefore | hafter
  · exact h byte (List.mem_append_left after hbefore)
  · rcases List.mem_cons.mp hafter with rfl | hafter
    · rfl
    · exact h byte (List.mem_append_right before hafter)

structure Instruction.MadeBehind (instruction : Instruction) (config : Config) (run : List UInt8)
    (selection : Selection) (tail : List UInt8) : Prop where
  prefixes : instruction.prefixes = .ofRun run
  mnemonic : ∃ width, instruction.mnemonic = selection.descriptor.mnemonicFor width
  shape : ∃ width next,
    instruction.shape = shapeOf selection.descriptor.kind instruction.operands width next
  operands : List.Forall₂ (fun spec operand => operand.ReadFrom (config.context (.ofRun run))
    selection.key.opcode selection.modeByte tail spec) selection.descriptor.operands instruction.operands
  size : instruction.size = run.length + selection.key.headLength selection.descriptor +
    (config.sizes run).tailLength selection.descriptor.operands selection.modeByte tail.head?

theorem Instruction.MadeBehind.resized {found again : Instruction} {config : Config}
    {before after tail : List UInt8} {selection : Selection} (hplain : 0x66 ∉ before ++ after)
    (h : found.MadeBehind config (before ++ after) selection tail)
    (hagain : again.MadeBehind config (before ++ 0x66 :: after) selection tail) :
    Resized selection.descriptor (config.codeSize.width false) (config.codeSize.width true) found again := by
  have hwidth := config.operandWidth_context_of_not_mem hplain
  have hoperands := h.operands
  have hothers := hagain.operands
  rw [config.context_insert] at hothers
  constructor
  case mnemonic =>
    intro hnone
    obtain ⟨width, hname⟩ := h.mnemonic
    obtain ⟨other, hother⟩ := hagain.mnemonic
    rw [hname, hother, Descriptor.mnemonicFor_of_none hnone, Descriptor.mnemonicFor_of_none hnone]
  case shape =>
    obtain ⟨width, next, hshape⟩ := h.shape
    obtain ⟨other, nextAgain, hother⟩ := hagain.shape
    rw [hshape, hother]
    exact shapeOf_alike (Operand.alike_of_readFrom hoperands hothers) _ _ _ _ _
  case length => exact hoperands.length_eq.symm
  case lengthAgain => exact hothers.length_eq.symm
  case operands =>
    intro position spec operand other hspec hoperand hother
    obtain ⟨hposition, rfl⟩ := List.getElem?_eq_some_iff.mp hspec
    obtain ⟨hfirst, rfl⟩ := List.getElem?_eq_some_iff.mp hoperand
    obtain ⟨hsecond, rfl⟩ := List.getElem?_eq_some_iff.mp hother
    rw [← hwidth]
    exact (hoperands.get hposition hfirst).resized (hothers.get hposition hsecond)
  case prefixes => rw [hagain.prefixes, h.prefixes, PrefixState.ofRun_insert]
  case size =>
    have hfields := (config.sizes (before ++ after)).fieldsLength_operand (config.codeSize.width true)
      selection.descriptor
    rw [config.sizes_operand_of_not_mem hplain] at hfields
    rw [h.size, hagain.size, config.sizes_insert]
    unfold Sizes.tailLength
    simp only [List.length_append, List.length_cons]
    push_cast
    omega

namespace Decoder

variable {decoder : Decoder} {front run rest : List UInt8} {base : Option UInt64}
  {instruction : Instruction}

theorem madeBehind_of_decode (hsound : decoder.table.Sound)
    (hrun : ∀ byte ∈ run, Prefix.isByte byte = true)
    (hrest : ∀ byte, rest.head? = some byte → Prefix.isByte byte = false)
    (h : decoder.decode (front ++ (run ++ rest)) front.length base = .ok instruction) :
    ∃ selection tail, decoder.table.Locates rest selection tail ∧
      instruction.MadeBehind decoder.config run selection tail := by
  obtain ⟨htake, hdrop⟩ := PrefixState.takeWhile_run_append_of_head hrun hrest
  have hcode : (front ++ (run ++ rest)).drop front.length = run ++ rest := List.drop_left
  obtain ⟨reading, hread, -, rfl⟩ := decode_eq_ok_iff.mp h
  rw [hcode] at hread
  obtain ⟨tail, behind, hlocates, hall, hprefixes⟩ := exists_locates_of_readCode hread
  obtain ⟨-, hinside, -⟩ := readCode_take_size hread
  have hsize := size_of_locates hsound hread hlocates
  rw [hdrop] at hlocates
  rw [htake] at hprefixes hsize
  rw [hprefixes] at hall
  have hdefect := hsound.defect _ _ hlocates.lookup_eq
  refine ⟨reading.body.selection, tail, hlocates, hprefixes, ⟨_, rfl⟩, ⟨_, _, rfl⟩,
    Operand.readFrom_of_readAll (Descriptor.spec_defect hdefect) hall, ?_⟩
  rw [hcode, Reading.size_instruction hinside, hsize]

theorem finds_of_locates {selection : Selection} {tail : List UInt8}
    (hrun : ∀ byte ∈ run, Prefix.isByte byte = true)
    (hrest : ∀ byte, rest.head? = some byte → Prefix.isByte byte = false)
    (h : decoder.table.Locates rest selection tail) :
    decoder.Finds (front ++ (run ++ rest)) front.length selection.key selection.descriptor := by
  have hcode : (front ++ (run ++ rest)).drop front.length = run ++ rest := List.drop_left
  refine finds_iff.mpr ⟨selection.modeByte, tail, ?_⟩
  rw [hcode, (PrefixState.takeWhile_run_append_of_head hrun hrest).2]
  exact h

/-- An override among the prefixes of an instruction, where both are decoded, leaves the descriptor, the
registers and the place in memory, switches the operands of variable size and lengthens the instruction by
itself and by what the constants and distances of variable size then take. -/
theorem resized_of_decode (calls : List (OpcodeKey × Descriptor)) (config : Config)
    {before after rest : List UInt8}
    (hrun : ∀ byte ∈ before ++ after, Prefix.isByte byte = true) (hplain : 0x66 ∉ before ++ after)
    (hrest : ∀ byte, rest.head? = some byte → Prefix.isByte byte = false)
    {front back : List UInt8} {base origin : Option UInt64} {found again : Instruction}
    (h : (Decoder.mk (.ofCalls calls) config).decode (front ++ (before ++ after ++ rest)) front.length
      base = .ok found)
    (hagain : (Decoder.mk (.ofCalls calls) config).decode (back ++ (before ++ 0x66 :: after ++ rest))
      back.length origin = .ok again) :
    ∃ key descriptor,
      (Decoder.mk (.ofCalls calls) config).Finds (front ++ (before ++ after ++ rest)) front.length key
        descriptor ∧
      (Decoder.mk (.ofCalls calls) config).Finds (back ++ (before ++ 0x66 :: after ++ rest)) back.length
        key descriptor ∧
      Instruction.Resized descriptor (config.codeSize.width false) (config.codeSize.width true) found
        again := by
  have hsound := Table.sound_ofCalls calls
  have hinserted := isByte_of_mem_insert hrun
  obtain ⟨selection, tail, hlocates, hmade⟩ := madeBehind_of_decode hsound hrun hrest h
  obtain ⟨other, behind, hother, hmadeAgain⟩ := madeBehind_of_decode hsound hinserted hrest hagain
  have hhead : ∀ byte more, rest = byte :: more → Prefix.isByte byte = false := by
    rintro byte more rfl
    exact hrest byte rfl
  obtain ⟨rfl, rfl⟩ := hlocates.unique hhead hother
  exact ⟨selection.key, selection.descriptor, finds_of_locates hrun hrest hlocates,
    finds_of_locates hinserted hrest hlocates, hmade.resized hplain hmadeAgain⟩

theorem resized_of_decode_add : ∃ found again key descriptor,
    small.decode [0x90, 0x2E, 0x81, 0x44, 0x8B, 0x04, 1, 2, 3, 4] 1 none = .ok found ∧ found.size = 9 ∧
      small.decode [0x2E, 0x66, 0x81, 0x44, 0x8B, 0x04, 1, 2, 3, 4] 0 none = .ok again ∧ again.size = 8 ∧
      small.Finds [0x2E, 0x66, 0x81, 0x44, 0x8B, 0x04, 1, 2, 3, 4] 0 key descriptor ∧
      Instruction.Resized descriptor .dword .word found again := by
  let address : MemoryAddress := {
    base := some (.general 3 .dword)
    index := some (.general 1 .dword)
    scale := 4
    displacement := .disp8 4
    segment := some .cs
    addressWidth := .dword }
  let found : Instruction := {
    mnemonic := "add"
    shape := .operation
    operands := [.memory address .dword, .immediate ⟨0x04030201, .dword, false⟩]
    encoding := [0x2E, 0x81, 0x44, 0x8B, 0x04, 1, 2, 3, 4]
    offset := 1
    address := none
    prefixes := { segment := some .cs } }
  let again : Instruction := {
    mnemonic := "add"
    shape := .operation
    operands := [.memory address .word, .immediate ⟨0x0201, .word, false⟩]
    encoding := [0x2E, 0x66, 0x81, 0x44, 0x8B, 0x04, 1, 2]
    offset := 0
    address := none
    prefixes := { operandSize := true, segment := some .cs } }
  have h : small.decode ([0x90] ++ ([0x2E] ++ [] ++ [0x81, 0x44, 0x8B, 0x04, 1, 2, 3, 4])) 1 none =
    .ok found := by decide +kernel
  have hagain : small.decode ([] ++ ([0x2E] ++ 0x66 :: [] ++ [0x81, 0x44, 0x8B, 0x04, 1, 2, 3, 4])) 0 none =
    .ok again := by decide +kernel
  have hrun : ∀ byte ∈ [0x2E] ++ [], Prefix.isByte byte = true := List.forall_mem_singleton.mpr rfl
  have hrest : ∀ byte, [0x81, 0x44, 0x8B, 0x04, 1, 2, 3, 4].head? = some byte →
      Prefix.isByte byte = false := by
    rintro _ ⟨⟩
    rfl
  have hplain : 0x66 ∉ ([0x2E] ++ [] : List UInt8) := by decide
  obtain ⟨key, descriptor, -, hfinds, hresized⟩ := resized_of_decode _ {} hrun hplain hrest h hagain
  exact ⟨found, again, key, descriptor, h, rfl, hagain, rfl, hfinds, hresized⟩

def shiftByOne : Descriptor := Builtin.general "shl" [Builtin.Ev, ⟨.one, .variable⟩]

def shifts : Decoder where
  table := .ofCalls [Builtin.primary 0xD1 shiftByOne]

/-- The constant one stays a byte under an override even where its type is that of the operand size. -/
theorem width_one_of_override : ∃ found again,
    shifts.decode [0xD1, 0xE0] 0 none = .ok found ∧
      shifts.decode [0x66, 0xD1, 0xE0] 0 none = .ok again ∧
      shifts.Finds [0xD1, 0xE0] 0 (.primary 0xD1) shiftByOne ∧
      shifts.Finds [0x66, 0xD1, 0xE0] 0 (.primary 0xD1) shiftByOne ∧
      shiftByOne.operands[1]?.map OperandSpec.type = some .variable ∧
      found.operands[1]?.map Operand.width = some .byte ∧
      again.operands[1]?.map Operand.width = some .byte := by
  let found : Instruction := {
    mnemonic := "shl"
    shape := .operation
    operands := [.register (.general 0 .dword), .immediate ⟨1, .byte, false⟩]
    encoding := [0xD1, 0xE0]
    offset := 0
    address := none
    prefixes := {} }
  let again : Instruction := {
    mnemonic := "shl"
    shape := .operation
    operands := [.register (.general 0 .word), .immediate ⟨1, .byte, false⟩]
    encoding := [0x66, 0xD1, 0xE0]
    offset := 0
    address := none
    prefixes := { operandSize := true } }
  have h : shifts.decode [0xD1, 0xE0] 0 none = .ok found := by decide +kernel
  have hagain : shifts.decode [0x66, 0xD1, 0xE0] 0 none = .ok again := by decide +kernel
  have hhead : ∀ byte rest, [0xD1, 0xE0] = byte :: rest → Prefix.isByte byte = false := by
    rintro _ _ ⟨⟩
    rfl
  have hlocates : shifts.table.Locates [0xD1, 0xE0]
      ⟨.primary 0xD1, shiftByOne, some (.ofByte 0xE0)⟩ [] :=
    (Table.locates_iff hhead).mpr (by decide +kernel)
  exact ⟨found, again, h, hagain, finds_iff.mpr ⟨_, _, hlocates⟩, finds_iff.mpr ⟨_, _, hlocates⟩,
    rfl, rfl, rfl⟩

end Decoder
end IA32
