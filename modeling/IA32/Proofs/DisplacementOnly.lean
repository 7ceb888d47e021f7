import IA32.Proofs.MemoryOperands
import IA32.Proofs.Walks

set_option autoImplicit false

namespace IA32

open Reader

def MemoryAddress.withBase (base : Option Register) (address : MemoryAddress) : MemoryAddress :=
  { address with base }

def Operand.withBase (base : Option Register) : Operand → Operand
  | .memory address width => .memory (address.withBase base) width
  | operand => operand

def Destination.withBase (base : Option Register) : Destination → Destination
  | .indirect operand => .indirect (operand.withBase base)
  | destination => destination

def Shape.withBase (base : Option Register) : Shape → Shape
  | .transfer flow destination => .transfer flow (destination.map (Destination.withBase base))
  | shape => shape

def ModeByte.isDisplacementOnly (byte : ModeByte) (addressWidth : Width) : Bool :=
  addressWidth = .dword && byte.mode = .withoutDisplacement && byte.rm.val = 5

namespace Selection

def rmPosition (selection : Selection) : Nat :=
  selection.descriptor.operands.findIdx (·.mode.usesRm)

def isDisplacementOnly (selection : Selection) (addressWidth : Width) : Bool :=
  (rmByte selection.descriptor.operands selection.modeByte).any (·.isDisplacementOnly addressWidth)

theorem isDisplacementOnly_iff {selection : Selection} {addressWidth : Width} :
    selection.isDisplacementOnly addressWidth = true ↔
      selection.descriptor.operands.any (·.mode.usesRm) = true ∧
        ∃ byte, selection.modeByte = some byte ∧ byte.isDisplacementOnly addressWidth = true := by
  unfold isDisplacementOnly rmByte
  cases selection.descriptor.operands.any (·.mode.usesRm) with
  | true => simp [Option.any_eq_true]
  | false => simp

end Selection

def Instruction.withBase (position : Nat) (base : Option Register) (instruction : Instruction) :
    Instruction :=
  { instruction with
    shape := instruction.shape.withBase base
    operands := instruction.operands.modify position (Operand.withBase base) }

def Body.resettled (addressWidth : Width) (setting : DisplacementOnly) (body : Body) : Body :=
  if body.selection.isDisplacementOnly addressWidth then
    { body with
      operands := body.operands.modify body.selection.rmPosition
        (Operand.withBase (MemoryAddress.displacementOnlyBase setting)) }
  else body

def Reading.resettled (config : Config) (setting : DisplacementOnly) (reading : Reading) : Reading :=
  { reading with body := reading.body.resettled (config.addressWidth reading.prefixes) setting }

variable {context : Context} {setting : DisplacementOnly} {byte : ModeByte}

namespace MemoryAddress

theorem read_of_not (hwidth : context.addressWidth ≠ .byte)
    (h : byte.isDisplacementOnly context.addressWidth = false) :
    read { context with displacementOnly := setting } byte = read context byte := by
  unfold read
  dsimp only
  cases haddress : context.addressWidth with
  | byte => contradiction
  | word => rfl
  | dword =>
    have hform : ¬ (byte.mode = .withoutDisplacement ∧ byte.rm.val = 5) := by
      simpa [ModeByte.isDisplacementOnly, haddress] using h
    unfold read32
    simp only [if_neg hform]
    rfl

theorem read_of_displacementOnly (setting : DisplacementOnly)
    (h : byte.isDisplacementOnly context.addressWidth = true) :
    read { context with displacementOnly := setting } byte =
      withBase (displacementOnlyBase setting) <$> read context byte := by
  obtain ⟨⟨hdword, hmode⟩, hrm⟩ : (context.addressWidth = .dword ∧ byte.mode = .withoutDisplacement) ∧
      byte.rm.val = 5 := by simpa [ModeByte.isDisplacementOnly] using h
  have hnot : byte.rm.val ≠ 4 := by omega
  unfold read
  dsimp only
  rw [hdword]
  dsimp only
  rw [read32_eq_read hnot, read32_eq_read hnot, hmode, hrm]
  cases setting <;> cases context.displacementOnly <;> rfl

end MemoryAddress

namespace Operand

variable {opcode : UInt8} {modeByte : Option ModeByte} {specs : List OperandSpec}
  {f : Operand → Operand}

theorem readRm_of_not (hwidth : context.addressWidth ≠ .byte)
    (h : byte.isDisplacementOnly context.addressWidth = false) (form : OperandForm) (width : Width) :
    readRm { context with displacementOnly := setting } byte form width =
      readRm context byte form width := by
  unfold readRm
  rw [MemoryAddress.read_of_not hwidth h]

theorem readRm_of_displacementOnly (h : byte.isDisplacementOnly context.addressWidth = true)
    (form : OperandForm) (width : Width) :
    readRm { context with displacementOnly := setting } byte form width =
      withBase (MemoryAddress.displacementOnlyBase setting) <$> readRm context byte form width := by
  unfold readRm
  rw [MemoryAddress.read_of_displacementOnly setting h]
  split
  · split <;> rfl
  · split
    · rfl
    · simp only [map_bind, bind_map_left, map_pure]
      rfl

theorem readFirstRm_withSetting
    (hrm : ∀ byte form type, modeByte = some byte → ⟨.rm form, type⟩ ∈ specs →
      readRm { context with displacementOnly := setting } byte form (context.width type) =
        f <$> readRm context byte form (context.width type)) :
    readFirstRm { context with displacementOnly := setting } modeByte specs =
      Option.map f <$> readFirstRm context modeByte specs := by
  induction specs with
  | nil => rfl
  | cons spec specs ih =>
    obtain ⟨mode, type⟩ := spec
    cases mode with
    | rm form =>
      cases modeByte with
      | none => rfl
      | some byte =>
        change (do return some (← readRm { context with displacementOnly := setting } byte form
          (context.width type)) : Reader (Option Operand)) =
            Option.map f <$> (do return some (← readRm context byte form (context.width type)))
        rw [hrm byte form type rfl List.mem_cons_self]
        simp only [map_bind, bind_map_left, map_pure, Option.map_some]
    | reg | immediate | relative | opcodeRegister | fixedRegister | one | offset =>
      exact ih fun byte form type hbyte hmem => hrm byte form type hbyte (List.mem_cons_of_mem _ hmem)

theorem readAround_withSetting (rm : Option Operand) (specs : List OperandSpec) :
    readAround { context with displacementOnly := setting } opcode modeByte rm specs =
      readAround context opcode modeByte rm specs := by
  induction specs generalizing rm with
  | nil => cases rm <;> rfl
  | cons spec specs ih =>
    have hplain : readPlain { context with displacementOnly := setting } opcode modeByte spec =
        readPlain context opcode modeByte spec := by
      unfold readPlain
      cases spec.mode <;> rfl
    unfold readAround
    simp only [hplain, ih]

/-- The r/m operand comes back at its place, so that changing it changes what is there. -/
theorem readAround_map (f : Operand → Operand) (rm : Option Operand) (specs : List OperandSpec) :
    readAround context opcode modeByte (rm.map f) specs =
      (·.modify (specs.findIdx (·.mode.usesRm)) f) <$> readAround context opcode modeByte rm specs := by
  induction specs with
  | nil => cases rm <;> rfl
  | cons spec specs ih =>
    unfold readAround
    rw [List.findIdx_cons]
    cases huses : spec.mode.usesRm with
    | true =>
      cases rm with
      | none => rfl
      | some operand =>
        simp only [if_true, Option.map_some, map_bind, map_pure, cond_true, List.modify_zero_cons]
    | false =>
      simp only [Bool.false_eq_true, if_false, ih, map_bind, map_pure, bind_map_left, cond_false,
        List.modify_succ_cons]

theorem readAll_withSetting
    (hrm : ∀ byte form type, modeByte = some byte → ⟨.rm form, type⟩ ∈ specs →
      readRm { context with displacementOnly := setting } byte form (context.width type) =
        f <$> readRm context byte form (context.width type)) :
    readAll { context with displacementOnly := setting } opcode modeByte specs =
      (·.modify (specs.findIdx (·.mode.usesRm)) f) <$> readAll context opcode modeByte specs := by
  unfold readAll
  rw [readFirstRm_withSetting hrm]
  simp only [bind_map_left, map_bind, readAround_withSetting, readAround_map]

end Operand

theorem MemoryAddress.ensures_base (h : byte.isDisplacementOnly context.addressWidth = true) :
    Ensures (read context byte) (·.base = displacementOnlyBase context.displacementOnly) := by
  intro code found hread
  rw [read_of_displacementOnly context.displacementOnly h, run_map] at hread
  obtain ⟨_, -, rfl⟩ := map_eq_ok_iff.mp hread
  rfl

theorem Operand.ensures_readRm_base (h : byte.isDisplacementOnly context.addressWidth = true)
    (form : OperandForm) (width : Width) :
    Ensures (readRm context byte form width) fun operand => ∃ address, operand = memory address width ∧
      address.base = MemoryAddress.displacementOnlyBase context.displacementOnly := by
  have hregister : ¬ byte.isRegister = true := by
    simp only [ModeByte.isDisplacementOnly, Bool.and_eq_true, decide_eq_true_eq] at h
    simp [ModeByte.isRegister, h.1.2]
  unfold readRm
  rw [if_neg hregister]
  split
  · exact ensures_invalid _
  · exact ensures_bind (MemoryAddress.ensures_base h) fun address hbase => ensures_pure ⟨address, rfl, hbase⟩

theorem Operand.exists_memory_of_readAll {opcode : UInt8} {specs : List OperandSpec}
    {operands : List Operand} {code rest : List UInt8}
    (h : (readAll context opcode (some byte) specs).run code = .ok (operands, rest))
    (huses : specs.any (·.mode.usesRm) = true)
    (hform : byte.isDisplacementOnly context.addressWidth = true) :
    ∃ address width, operands[specs.findIdx (·.mode.usesRm)]? = some (.memory address width) ∧
      address.base = MemoryAddress.displacementOnlyBase context.displacementOnly := by
  have hall : List.Forall₂ (fun spec operand => spec.mode.usesRm = true →
      ∃ address width, operand = memory address width ∧
        address.base = MemoryAddress.displacementOnlyBase context.displacementOnly) specs operands := by
    refine forall₂_of_readAll h ?_ fun spec _ hplain _ _ _ hrm => ?_
    · rintro form type _ operand rest - ⟨⟩ hread -
      obtain ⟨address, hoperand, hbase⟩ := ensures_readRm_base hform form _ _ _ hread
      exact ⟨address, _, hoperand, hbase⟩
    · rw [hplain] at hrm
      contradiction
  obtain ⟨spec, hmem, hspec⟩ := List.any_eq_true.mp huses
  have hlt : specs.findIdx (·.mode.usesRm) < specs.length :=
    List.findIdx_lt_length_of_exists ⟨spec, hmem, hspec⟩
  have hlen : specs.findIdx (·.mode.usesRm) < operands.length := hall.length_eq ▸ hlt
  obtain ⟨address, width, hget, hbase⟩ := hall.get hlt hlen (List.findIdx_getElem (w := hlt))
  exact ⟨address, width, (List.getElem?_eq_getElem hlen).trans (congrArg some hget), hbase⟩

theorem Table.readBody_withSetting (table : Table) (setting : DisplacementOnly)
    (hwidth : context.addressWidth ≠ .byte) :
    table.readBody { context with displacementOnly := setting } =
      Body.resettled context.addressWidth setting <$> table.readBody context := by
  unfold readBody
  simp only [map_bind, map_pure]
  refine congrArg _ (funext fun key => congrArg _ (funext fun selection => ?_))
  cases hform : selection.isDisplacementOnly context.addressWidth with
  | true =>
    obtain ⟨-, byte, hbyte, hbyteForm⟩ := Selection.isDisplacementOnly_iff.mp hform
    rw [Operand.readAll_withSetting
      (f := Operand.withBase (MemoryAddress.displacementOnlyBase setting)), bind_map_left]
    · simp only [Body.resettled, hform, if_true]
      rfl
    · intro found form type hfound _
      obtain rfl := Option.some.inj (hbyte.symm.trans hfound)
      exact Operand.readRm_of_displacementOnly hbyteForm form _
  | false =>
    rw [Operand.readAll_withSetting (f := id), bind_map_left]
    · simp only [Body.resettled, hform, Bool.false_eq_true, if_false, List.modify_id]
    · intro found form type hfound hmem
      have huses : selection.descriptor.operands.any (·.mode.usesRm) = true :=
        List.any_eq_true.mpr ⟨_, hmem, rfl⟩
      rw [id_map]
      refine Operand.readRm_of_not hwidth (eq_false_of_ne_true fun hbyteForm => ?_) form _
      rw [Selection.isDisplacementOnly_iff.mpr ⟨huses, found, hfound, hbyteForm⟩] at hform
      contradiction

theorem Instruction.destination_withBase (operandWidth : Width) (next : Option UInt64)
    (base : Option Register) (operand : Operand) :
    destination operandWidth next (operand.withBase base) =
      (destination operandWidth next operand).withBase base := by
  cases operand <;> rfl

/-- A transfer to the r/m operand leads to that with its other base. -/
theorem Descriptor.shapeOf_withBase {descriptor : Descriptor} (hdefect : descriptor.defect? = none)
    {operands : List Operand} (hlength : operands.length = descriptor.operands.length)
    (huses : descriptor.operands.any (·.mode.usesRm) = true) (base : Option Register) (width : Width)
    (next : Option UInt64) :
    Instruction.shapeOf descriptor.kind
        (operands.modify (descriptor.operands.findIdx (·.mode.usesRm)) (Operand.withBase base)) width
        next =
      (Instruction.shapeOf descriptor.kind operands width next).withBase base := by
  rcases InstructionClass.operands_cases (Descriptor.kind_defect hdefect) with
    ⟨flow, type, hkind, hflow, hspecs⟩ | ⟨flow, form, type, hkind, hflow, hspecs⟩ |
      ⟨hkind | hkind, -⟩
  · rw [hspecs] at huses
    contradiction
  · rw [hspecs] at hlength ⊢
    obtain ⟨operand, rfl⟩ := List.length_eq_one_iff.mp hlength
    rw [hkind, Instruction.shapeOf_transfer hflow, Instruction.shapeOf_transfer hflow]
    exact congrArg (fun destination => Shape.transfer flow (some destination))
      (Instruction.destination_withBase width next base operand)
  · rw [hkind]
    cases descriptor.operands.findIdx (·.mode.usesRm) <;> cases operands <;> rfl
  · rw [hkind]
    rfl

inductive DisplacementOnly.Names : DisplacementOnly → Option Register → Prop where
  | absolute : Names .absolute none
  | instructionPointerRelative :
      Names .instructionPointerRelative (some (.instructionPointer .dword))

theorem DisplacementOnly.names_displacementOnlyBase (setting : DisplacementOnly) :
    setting.Names (MemoryAddress.displacementOnlyBase setting) := by
  cases setting with
  | absolute => exact .absolute
  | instructionPointerRelative => exact .instructionPointerRelative

namespace Decoder

/-- What an instruction of the image is under another setting for displacements that stand alone: the same,
unless its r/m operand is such a displacement. -/
inductive Resettles (decoder : Decoder) (image : List UInt8) (setting : DisplacementOnly)
    (found : Instruction) : Instruction → Prop where
  | other {selection : Selection} {tail : List UInt8} :
      decoder.table.Locates ((image.drop found.offset).dropWhile Prefix.isByte) selection tail →
      selection.isDisplacementOnly (decoder.config.addressWidth found.prefixes) = false →
      Resettles decoder image setting found found
  | displacementOnly {selection : Selection} {tail : List UInt8} {address : MemoryAddress}
      {width : Width} {other : Option Register} :
      decoder.table.Locates ((image.drop found.offset).dropWhile Prefix.isByte) selection tail →
      selection.isDisplacementOnly (decoder.config.addressWidth found.prefixes) = true →
      found.operands[selection.rmPosition]? = some (.memory address width) →
      decoder.config.displacementOnly.Names address.base → setting.Names other →
      Resettles decoder image setting found (found.withBase selection.rmPosition other)

def withSetting (decoder : Decoder) (displacementOnly : DisplacementOnly) : Decoder :=
  { decoder with config := { decoder.config with displacementOnly } }

variable {decoder : Decoder} {image code : List UInt8} {start : Nat} {base : Option UInt64}
  {found again : Instruction}

theorem Resettles.offset_eq (h : decoder.Resettles image setting found again) :
    again.offset = found.offset := by
  cases h <;> rfl

theorem Resettles.size_eq (h : decoder.Resettles image setting found again) :
    again.size = found.size := by
  cases h <;> rfl

theorem Resettles.nextOffset_eq (h : decoder.Resettles image setting found again) :
    again.nextOffset = found.nextOffset := by
  rw [Instruction.nextOffset, Instruction.nextOffset, h.offset_eq, h.size_eq]

theorem readCode_withSetting (decoder : Decoder) (setting : DisplacementOnly) (code : List UInt8) :
    (decoder.withSetting setting).readCode code =
      (decoder.readCode code).map (Reading.resettled decoder.config setting) := by
  have hbody := decoder.table.readBody_withSetting setting
    (decoder.config.addressWidth_context_ne (.ofRun (code.takeWhile Prefix.isByte)))
  unfold readCode readBehind
  change Except.map _ ((decoder.table.readBody { decoder.config.context _ with
    displacementOnly := setting }).run _) = _
  rw [hbody, run_map]
  cases (decoder.table.readBody (decoder.config.context (.ofRun (code.takeWhile Prefix.isByte)))).run
    (code.dropWhile Prefix.isByte) with
  | error halt => rfl
  | ok read => rfl

theorem resettles_instruction (hsound : decoder.table.Sound) {reading : Reading}
    (h : decoder.readCode (image.drop start) = .ok reading) (base : Option UInt64) :
    decoder.Resettles image setting
      (reading.instruction decoder.config (image.drop start) start base)
      ((reading.resettled decoder.config setting).instruction decoder.config (image.drop start) start
        base) := by
  obtain ⟨tail, rest, hlocates, hall, -⟩ := exists_locates_of_readCode h
  cases hform : reading.body.selection.isDisplacementOnly
      (decoder.config.addressWidth reading.prefixes) with
  | false =>
    have hsame : reading.resettled decoder.config setting = reading := by
      simp [Reading.resettled, Body.resettled, hform]
    rw [hsame]
    exact .other hlocates hform
  | true =>
    obtain ⟨huses, byte, hbyte, hbyteForm⟩ := Selection.isDisplacementOnly_iff.mp hform
    have hdefect := hsound.defect _ _ hlocates.lookup_eq
    have hlength := (Operand.conforms_of_readAll (Descriptor.spec_defect hdefect) hall).length_eq
    rw [hbyte] at hall
    obtain ⟨address, width, hget, hbase⟩ := Operand.exists_memory_of_readAll hall huses hbyteForm
    have hshape := Descriptor.shapeOf_withBase hdefect hlength.symm huses
      (MemoryAddress.displacementOnlyBase setting) (decoder.config.operandWidth reading.prefixes)
      ((base.map (· + .ofNat start)).map (· + .ofNat reading.size))
    have hsame : (reading.resettled decoder.config setting).instruction decoder.config
          (image.drop start) start base =
        (reading.instruction decoder.config (image.drop start) start base).withBase
          reading.body.selection.rmPosition (MemoryAddress.displacementOnlyBase setting) := by
      simp only [Reading.resettled, Body.resettled, hform, if_true, Reading.instruction,
        Instruction.withBase, Selection.rmPosition, hshape]
    have hnames : decoder.config.displacementOnly.Names address.base :=
      hbase ▸ DisplacementOnly.names_displacementOnlyBase decoder.config.displacementOnly
    rw [hsame]
    exact .displacementOnly hlocates hform hget hnames
      (DisplacementOnly.names_displacementOnlyBase setting)

theorem decode_withSetting_of_ok (hsound : decoder.table.Sound) (setting : DisplacementOnly)
    (h : decoder.decode image start base = .ok found) :
    ∃ again, (decoder.withSetting setting).decode image start base = .ok again ∧
      decoder.Resettles image setting found again := by
  obtain ⟨reading, hread, hlimit, rfl⟩ := decode_eq_ok_iff.mp h
  have hother := readCode_withSetting decoder setting (image.drop start)
  rw [hread] at hother
  exact ⟨_, decode_eq_ok_iff.mpr ⟨_, hother, hlimit, rfl⟩, resettles_instruction hsound hread base⟩

theorem decode_withSetting_of_error (setting : DisplacementOnly) {error : DecodeError}
    (h : decoder.decode image start base = .error error) :
    (decoder.withSetting setting).decode image start base = .error error :=
  decode_error_of_map (readCode_withSetting decoder setting _) rfl rfl (fun _ => rfl) h

theorem lengthAt_withSetting (hsound : decoder.table.Sound) (setting : DisplacementOnly)
    (image : List UInt8) (start : Nat) :
    (decoder.withSetting setting).lengthAt image start = decoder.lengthAt image start := by
  unfold lengthAt
  cases hdecode : decoder.decode image start none with
  | error error => rw [decode_withSetting_of_error setting hdecode]
  | ok found =>
    obtain ⟨again, hagain, hsame⟩ := decode_withSetting_of_ok hsound setting hdecode
    rw [hagain]
    exact congrArg Except.ok hsame.size_eq

theorem sweep_withSetting (hsound : decoder.table.Sound) (setting : DisplacementOnly)
    (image : List UInt8) (start : Nat) (base : Option UInt64) :
    ∃ others,
      (decoder.withSetting setting).sweep image start base =
        { decoder.sweep image start base with instructions := others } ∧
      List.Forall₂ (decoder.Resettles image setting) (decoder.sweep image start base).instructions
        others := by
  obtain ⟨htiling, hstops⟩ := tiling_sweep decoder image start base
  have htransfer : ∀ offset found, decoder.decode image offset base = .ok found →
      ∃ again, (decoder.withSetting setting).decode image offset base = .ok again ∧
        again.nextOffset = found.nextOffset ∧ decoder.Resettles image setting found again := by
    intro offset found hfound
    obtain ⟨again, hagain, hsame⟩ := decode_withSetting_of_ok hsound setting hfound
    exact ⟨again, hagain, hsame.nextOffset_eq, hsame⟩
  obtain ⟨others, hothers, hsame⟩ := htiling.forall₂ htransfer
  have hothersStop := hstops.of_error fun failure => decode_withSetting_of_error setting
  exact ⟨others, hothers.sweep_eq_of_stops hothersStop, hsame⟩

theorem map_offset_of_resettles {instructions others : List Instruction}
    (h : List.Forall₂ (decoder.Resettles image setting) instructions others) :
    others.map Instruction.offset = instructions.map Instruction.offset := by
  induction h with
  | nil => rfl
  | cons hfirst _ ih => rw [List.map_cons, List.map_cons, ih, hfirst.offset_eq]

theorem boundaries_withSetting (hsound : decoder.table.Sound) (setting : DisplacementOnly)
    (image : List UInt8) (start : Nat) :
    (decoder.withSetting setting).boundaries image start = decoder.boundaries image start := by
  obtain ⟨others, hothers, hsame⟩ := sweep_withSetting hsound setting image start none
  rw [boundaries_eq_offsets _ image start none, boundaries_eq_offsets decoder image start none, hothers]
  unfold Sweep.offsets
  simp only [map_offset_of_resettles hsame]

end Decoder

structure Decoder.AgreesUpToBase (decoder other : Decoder) (image : List UInt8) (start : Nat)
    (base : Option UInt64) : Prop where
  error : ∀ error, decoder.decode image start base = .error error →
    other.decode image start base = .error error
  instruction : ∀ found, decoder.decode image start base = .ok found →
    ∃ again, other.decode image start base = .ok again ∧
      decoder.Resettles image other.config.displacementOnly found again
  lengthAt : other.lengthAt image start = decoder.lengthAt image start
  boundaries : other.boundaries image start = decoder.boundaries image start
  sweep : List.Forall₂ (decoder.Resettles image other.config.displacementOnly)
    (decoder.sweep image start base).instructions (other.sweep image start base).instructions
  sweepError : (other.sweep image start base).error = (decoder.sweep image start base).error
  endOffset : (other.sweep image start base).endOffset = (decoder.sweep image start base).endOffset

namespace Decoder

/-- Under another setting for displacements that stand alone everything is read as before, but for the base
of an r/m operand that is such a displacement. -/
theorem decode_displacementOnly (calls : List (OpcodeKey × Descriptor)) (config : Config)
    (setting : DisplacementOnly) (image : List UInt8) (start : Nat) (base : Option UInt64) :
    (Decoder.mk (.ofCalls calls) config).AgreesUpToBase
      (Decoder.mk (.ofCalls calls) { config with displacementOnly := setting }) image start base := by
  have hsound : (Decoder.mk (.ofCalls calls) config).table.Sound := Table.sound_ofCalls calls
  change (Decoder.mk (.ofCalls calls) config).AgreesUpToBase
    ((Decoder.mk (.ofCalls calls) config).withSetting setting) image start base
  generalize Decoder.mk (.ofCalls calls) config = decoder at hsound ⊢
  obtain ⟨others, hothers, hsame⟩ := sweep_withSetting hsound setting image start base
  exact {
    error := fun _ => decode_withSetting_of_error setting
    instruction := fun _ => decode_withSetting_of_ok hsound setting
    lengthAt := lengthAt_withSetting hsound setting image start
    boundaries := boundaries_withSetting hsound setting image start
    sweep := by rwa [hothers]
    sweepError := by rw [hothers]
    endOffset := by rw [hothers] }

-- An indirect jump; its destination is the operand in memory.
example : (decode ⟨.ofCalls [Builtin.member 0xFF 4 (Builtin.transfer "jmp" .jump [Builtin.Ev])],
        { displacementOnly := .instructionPointerRelative }⟩ [0x2E, 0xFF, 0x25, 8, 0, 0, 0] 0 none =
      (decode ⟨.ofCalls [Builtin.member 0xFF 4 (Builtin.transfer "jmp" .jump [Builtin.Ev])], {}⟩
        [0x2E, 0xFF, 0x25, 8, 0, 0, 0] 0 none).map
          (·.withBase 0 (some (.instructionPointer .dword)))) := by decide +kernel

end Decoder
end IA32
