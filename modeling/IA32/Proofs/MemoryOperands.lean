import IA32.Proofs.AddressForms
import IA32.Proofs.Conformance

set_option autoImplicit false

namespace IA32

open Reader

def MemoryAddress.registers (address : MemoryAddress) : List Register :=
  address.base.toList ++ address.index.toList

structure MemoryAddress.WellFormed (address : MemoryAddress) (config : Config) (prefixes : PrefixState) :
    Prop where
  named : address.base ≠ none ∨ address.index ≠ none ∨ address.displacement ≠ .none
  scale : address.scale = 1 ∨ address.scale = 2 ∨ address.scale = 4 ∨ address.scale = 8
  unscaled : address.index = none → address.scale = 1
  addressWidth : address.addressWidth = config.addressWidth prefixes
  width : ∀ register ∈ address.registers, register.width = address.addressWidth
  segment : address.segment = prefixes.segment
  number : ∀ number width, .general number width ∈ address.registers → number < 8
  dword : address.addressWidth = .dword →
    address.index ≠ some (.general 4 .dword) ∧ ∀ value, address.displacement ≠ .disp16 value
  word : address.addressWidth = .word → address.scale = 1 ∧
    (∀ register ∈ address.registers, register ∈ AddressForm.pointers16) ∧
    ∀ value, address.displacement ≠ .disp32 value
  baseless : address.base = none →
    (address.addressWidth = .word ∧ ∃ value, address.displacement = .disp16 value) ∨
      address.addressWidth = .dword ∧ ∃ value, address.displacement = .disp32 value
  pointer : ∀ width, .instructionPointer width ∈ address.registers →
    address.base = some (.instructionPointer width) ∧
    config.displacementOnly = .instructionPointerRelative ∧ address.addressWidth = .dword ∧
    address.index = none ∧ ∃ value, address.displacement = .disp32 value

theorem MemoryAddress.mem_registers {address : MemoryAddress} {register : Register} :
    register ∈ address.registers ↔ address.base = some register ∨ address.index = some register := by
  simp [registers]

namespace Displacement

variable {width : Option Width} {bytes : List UInt8}

theorem width_eq_of_disp16 {value : Int16} (h : ofBytes width bytes = .disp16 value) :
    width = some .word := by
  cases width with
  | none => contradiction
  | some width =>
    cases width with
    | word => rfl
    | byte | dword => contradiction

theorem width_eq_of_disp32 {value : Int32} (h : ofBytes width bytes = .disp32 value) :
    width = some .dword := by
  cases width with
  | none => contradiction
  | some width =>
    cases width with
    | dword => rfl
    | byte | word => contradiction

end Displacement

namespace AddressForm

variable {form : AddressForm} {displacementOnly : DisplacementOnly} {addressWidth : Width}
  {config : Config} {prefixes : PrefixState}

theorem Sound.register (h : form.Sound displacementOnly addressWidth) {register : Register}
    (hregister : form.base = some register ∨ form.index = some register) :
    (∃ number < 8, register = .general number addressWidth) ∨
      form.base = some (.instructionPointer .dword) ∧ register = .instructionPointer .dword ∧
        addressWidth = .dword ∧ displacementOnly = .instructionPointerRelative ∧ form.index = none ∧
        form.displacement = some .dword := by
  rcases hregister with hbase | hindex
  · exact (h.base register hbase).imp_right fun ⟨hpointer, hrest⟩ => ⟨hpointer ▸ hbase, hpointer, hrest⟩
  · exact .inl (h.index register hindex)

theorem Sound.wellFormed
    (h : form.Sound config.displacementOnly (config.addressWidth prefixes)) (bytes : List UInt8) :
    (form.address (config.context prefixes) (config.addressWidth prefixes)
      (.ofBytes form.displacement bytes)).WellFormed config prefixes where
  named := by
    cases hbase : form.base with
    | some register => exact .inl (by simp [address, hbase])
    | none =>
      have hpresent := Displacement.isPresent_ofBytes (config.addressWidth prefixes) bytes
      rw [← h.baseless hbase] at hpresent
      refine .inr (.inr fun hnone => ?_)
      rw [show Displacement.ofBytes form.displacement bytes = .none from hnone] at hpresent
      contradiction
  scale := by
    have hscale := h.scale
    unfold MemoryAddress.isScale at hscale
    cases hindex : form.index with
    | none => exact .inl (by simp [address, hindex])
    | some register => simpa [address, hindex, or_assoc] using hscale
  unscaled hindex := by
    have hnone : form.index = none := hindex
    simp [address, hnone]
  addressWidth := rfl
  width register hregister := by
    rcases h.register (MemoryAddress.mem_registers.mp hregister) with
      ⟨number, -, rfl⟩ | ⟨-, rfl, hwidth, -⟩
    · rfl
    · exact hwidth.symm
  segment := rfl
  number number width hregister := by
    rcases h.register (MemoryAddress.mem_registers.mp hregister) with
      ⟨_, hnumber, heq⟩ | ⟨-, heq, -⟩
    · cases heq
      exact hnumber
    · contradiction
  dword hwidth := by
    refine ⟨h.dwordIndex hwidth, fun value hvalue => ?_⟩
    have hword := Displacement.width_eq_of_disp16 hvalue
    have hcases := h.displacement
    rw [hword, show config.addressWidth prefixes = .dword from hwidth] at hcases
    simp at hcases
  word hwidth := by
    refine ⟨?_, fun register hregister => ?_, fun value hvalue => ?_⟩
    · have hscale := h.wordScale hwidth
      simp [address, hscale]
    · rcases MemoryAddress.mem_registers.mp hregister with hbase | hindex
      · exact h.wordBase hwidth register hbase
      · exact h.wordIndex hwidth register hindex
    · have hdword := Displacement.width_eq_of_disp32 hvalue
      have hcases := h.displacement
      rw [hdword, show config.addressWidth prefixes = .word from hwidth] at hcases
      simp at hcases
  baseless hbase := by
    have hfull : form.displacement = some (config.addressWidth prefixes) := h.baseless hbase
    have hne : config.addressWidth prefixes ≠ .byte := config.addressWidth_context_ne prefixes
    unfold address
    rw [hfull]
    cases hwidth : config.addressWidth prefixes with
    | byte => contradiction
    | word => exact .inl ⟨rfl, _, rfl⟩
    | dword => exact .inr ⟨rfl, _, rfl⟩
  pointer width hregister := by
    rcases h.register (MemoryAddress.mem_registers.mp hregister) with
      ⟨_, -, heq⟩ | ⟨hbase, heq, hwidth, hrelative, hindex, hfull⟩
    · contradiction
    · cases heq
      refine ⟨hbase, hrelative, hwidth, hindex, ?_⟩
      unfold address
      rw [hfull]
      exact ⟨_, rfl⟩

theorem sound_offset (displacementOnly : DisplacementOnly) (addressWidth : Width) :
    Sound { displacement := some addressWidth } displacementOnly addressWidth := by
  constructor <;> simp [MemoryAddress.isScale]

end AddressForm

theorem Reader.ensures_of_takes {α : Type} {reader : Reader α} {post : α → Prop} {count : List UInt8 → Nat}
    (h : ∀ code, Takes reader code (count code) post) : Ensures reader post := by
  intro code read hread
  by_cases hcount : count code ≤ code.length
  · obtain ⟨value, hrun, hpost⟩ := (h code).1 hcount
    rw [hrun] at hread
    cases hread
    exact hpost
  · rw [(h code).2 (Nat.lt_of_not_le hcount)] at hread
    contradiction

namespace Operand

variable {config : Config} {prefixes : PrefixState} {opcode : UInt8} {modeByte : Option ModeByte}

def WellFormed (operand : Operand) (config : Config) (prefixes : PrefixState) : Prop :=
  ∀ address width, operand = .memory address width → address.WellFormed config prefixes

theorem wellFormed_memory {address : MemoryAddress} (h : address.WellFormed config prefixes)
    (width : Width) : (memory address width).WellFormed config prefixes := by
  rintro _ _ ⟨⟩
  exact h

theorem wellFormed_register (register : Register) :
    (Operand.register register).WellFormed config prefixes := fun _ _ h => nomatch h

theorem wellFormed_immediate (constant : Immediate) :
    (Operand.immediate constant).WellFormed config prefixes := fun _ _ h => nomatch h

theorem ensures_readRm_wellFormed (byte : ModeByte) (form : OperandForm) (width : Width) :
    Ensures (readRm (config.context prefixes) byte form width) (·.WellFormed config prefixes) := by
  have hwidth := config.addressWidth_context_ne prefixes
  have haddress : Ensures (MemoryAddress.read (config.context prefixes) byte)
      (·.WellFormed config prefixes) := by
    refine ensures_of_takes fun code => (MemoryAddress.takes_read hwidth byte code).weaken ?_
    rintro _ rfl
    exact (AddressForm.sound_ofFields _ hwidth _ byte.rm.isLt _).wellFormed _
  unfold readRm
  split
  · split
    · exact ensures_invalid _
    · exact ensures_pure (wellFormed_register _)
  · split
    · exact ensures_invalid _
    · exact ensures_bind haddress fun address h => ensures_pure (wellFormed_memory h width)

theorem ensures_readOffset_wellFormed (type : OperandType) :
    Ensures (readValue (config.context prefixes) ⟨.offset, type⟩) (·.WellFormed config prefixes) := by
  have hwidth := config.addressWidth_context_ne prefixes
  have hfield : (OperandSpec.mk .offset type).mode.isField = true := rfl
  refine ensures_of_takes fun code => (takes_readValue hwidth hfield).weaken ?_
  rintro _ rfl
  exact wellFormed_memory ((AddressForm.sound_offset _ _).wellFormed _) _

theorem ensures_readPlain_wellFormed {spec : OperandSpec} (hplain : spec.mode.usesRm = false) :
    Ensures (readPlain (config.context prefixes) opcode modeByte spec) (·.WellFormed config prefixes) := by
  obtain ⟨mode, type⟩ := spec
  cases mode with
  | rm form => contradiction
  | reg => exact ensures_bind (ensures_trivial _) fun _ _ => ensures_pure (wellFormed_register _)
  | opcodeRegister | fixedRegister => exact ensures_pure (wellFormed_register _)
  | one => exact ensures_pure (wellFormed_immediate _)
  | immediate | relative =>
    exact ensures_bind (ensures_trivial _) fun _ _ => ensures_pure (wellFormed_immediate _)
  | offset => exact ensures_readOffset_wellFormed type

/-- What holds of every operand that is read holds of the operands of an instruction. -/
theorem forall_mem_of_readAll {context : Context} {specs : List OperandSpec} {code rest : List UInt8}
    {operands : List Operand} {post : Operand → Prop}
    (hrm : ∀ byte form width, Ensures (readRm context byte form width) post)
    (hplain : ∀ spec : OperandSpec, spec.mode.usesRm = false →
      Ensures (readPlain context opcode modeByte spec) post)
    (h : (readAll context opcode modeByte specs).run code = .ok (operands, rest)) :
    ∀ operand ∈ operands, post operand := by
  have hall : List.Forall₂ (fun _ operand => post operand) specs operands :=
    forall₂_of_readAll h (fun form type byte operand rest _ _ hread => hrm byte form _ _ _ hread)
      fun spec _ => hplain spec
  intro operand hmem
  obtain ⟨position, rfl⟩ := List.get_of_mem hmem
  have hspec : position < specs.length := by
    rw [hall.length_eq]
    exact position.isLt
  exact hall.get hspec position.isLt

theorem wellFormed_of_readAll {specs : List OperandSpec} {code rest : List UInt8}
    {operands : List Operand}
    (h : (readAll (config.context prefixes) opcode modeByte specs).run code = .ok (operands, rest)) :
    ∀ operand ∈ operands, operand.WellFormed config prefixes :=
  forall_mem_of_readAll ensures_readRm_wellFormed (fun _ => ensures_readPlain_wellFormed) h

end Operand

theorem Instruction.mem_of_shapeOf_indirect {kind : InstructionClass} {operands : List Operand}
    {width : Width} {next : Option UInt64} {flow : Flow} {operand : Operand}
    (h : shapeOf kind operands width next = .transfer flow (some (.indirect operand))) :
    operand ∈ operands := by
  cases kind with
  | general =>
    unfold shapeOf at h
    dsimp only at h
    split at h <;> contradiction
  | transfer other =>
    by_cases hret : other = .ret
    · rw [hret] at h
      have hnone : none = some (Destination.indirect operand) := (Shape.transfer.inj h).2
      contradiction
    · rw [shapeOf_transfer hret] at h
      obtain ⟨first, hfirst, hindirect⟩ := Option.map_eq_some_iff.mp (Shape.transfer.inj h).2
      have hsame : first = operand := by
        cases first with
        | immediate constant => contradiction
        | register source => exact Destination.indirect.inj hindirect
        | memory address width => exact Destination.indirect.inj hindirect
      exact hsame ▸ List.mem_of_head? hfirst

namespace Decoder

variable {decoder : Decoder} {image : List UInt8} {start : Nat} {base : Option UInt64}
  {instruction : Instruction}

/-- Every address in an instruction is well formed, whether as an operand or as where a jump or call leads. -/
theorem wellFormed_of_decode (h : decoder.decode image start base = .ok instruction)
    {address : MemoryAddress} {width : Width}
    (haddress : .memory address width ∈ instruction.operands ∨ ∃ flow,
      instruction.shape = .transfer flow (some (.indirect (.memory address width)))) :
    address.WellFormed decoder.config instruction.prefixes := by
  obtain ⟨reading, hread, -, rfl⟩ := decode_eq_ok_iff.mp h
  obtain ⟨tail, rest, -, hall, -⟩ := exists_locates_of_readCode hread
  have hmem : .memory address width ∈ reading.body.operands := by
    rcases haddress with hmem | ⟨flow, hshape⟩
    · exact hmem
    · exact Instruction.mem_of_shapeOf_indirect hshape
  exact Operand.wellFormed_of_readAll hall _ hmem address width rfl

theorem wellFormed_of_decode_indirect : ∃ jump address,
    decode ⟨.ofCalls [Builtin.member 0xFF 4 (Builtin.transfer "jmp" .jump [Builtin.Ev])],
        { displacementOnly := .instructionPointerRelative }⟩ [0x2E, 0xFF, 0x25, 8, 0, 0, 0] 0 none =
      .ok jump ∧
    jump.shape = .transfer .jump (some (.indirect (.memory address .dword))) ∧
    address.WellFormed { displacementOnly := .instructionPointerRelative } jump.prefixes := by
  let address : MemoryAddress := {
    base := some (.instructionPointer .dword)
    index := none
    scale := 1
    displacement := .disp32 8
    segment := some .cs
    addressWidth := .dword }
  let jump : Instruction := {
    mnemonic := "jmp"
    shape := .transfer .jump (some (.indirect (.memory address .dword)))
    operands := [.memory address .dword]
    encoding := [0x2E, 0xFF, 0x25, 8, 0, 0, 0]
    offset := 0
    address := none
    prefixes := { segment := some .cs } }
  have h : decode ⟨.ofCalls [Builtin.member 0xFF 4 (Builtin.transfer "jmp" .jump [Builtin.Ev])],
      { displacementOnly := .instructionPointerRelative }⟩ [0x2E, 0xFF, 0x25, 8, 0, 0, 0] 0 none =
    .ok jump := by decide +kernel
  exact ⟨jump, address, h, rfl, wellFormed_of_decode h (.inr ⟨.jump, rfl⟩)⟩

end Decoder
end IA32
