import IA32.Proofs.OperandOrder

set_option autoImplicit false

namespace IA32

open Reader

def ModeByte.toByte (byte : ModeByte) : UInt8 :=
  .ofNat (64 * byte.mode.number + 8 * byte.reg.val + byte.rm.val)

def ScaleByte.toByte (byte : ScaleByte) : UInt8 :=
  .ofNat (64 * byte.shift.val + 8 * byte.index.val + byte.base.val)

theorem ModeByte.ofByte_toByte (byte : ModeByte) : ofByte byte.toByte = byte := by
  obtain ⟨mode, reg, rm⟩ := byte
  have hmode : mode.number < 4 := by cases mode <;> decide
  have hsmall : 64 * mode.number + 8 * reg.val + rm.val < 256 := by omega
  have hbyte : (toByte ⟨mode, reg, rm⟩).toNat = 64 * mode.number + 8 * reg.val + rm.val :=
    Nat.mod_eq_of_lt hsmall
  have hhigh : (64 * mode.number + 8 * reg.val + rm.val) / 64 = mode.number := by omega
  unfold ofByte
  rw [hbyte, hhigh, Mode.ofNumber_number, ModeByte.mk.injEq]
  exact ⟨rfl, Fin.ext (by simp only [Fin.val_ofNat]; omega), Fin.ext (by simp only [Fin.val_ofNat]; omega)⟩

theorem ScaleByte.ofByte_toByte (byte : ScaleByte) : ofByte byte.toByte = byte := by
  obtain ⟨shift, index, base⟩ := byte
  have hsmall : 64 * shift.val + 8 * index.val + base.val < 256 := by omega
  have hbyte : (toByte ⟨shift, index, base⟩).toNat = 64 * shift.val + 8 * index.val + base.val :=
    Nat.mod_eq_of_lt hsmall
  unfold ofByte
  rw [hbyte, ScaleByte.mk.injEq]
  exact ⟨Fin.ext (by simp only [Fin.val_ofNat]; omega), Fin.ext (by simp only [Fin.val_ofNat]; omega),
    Fin.ext (by simp only [Fin.val_ofNat]; omega)⟩

namespace ModeByte

def viaScaleByte (byte : ModeByte) : ModeByte := { byte with rm := ⟨4, by decide⟩ }

def baseByte (byte : ModeByte) (shift : Fin 4) : ScaleByte := ⟨shift, ⟨4, by decide⟩, byte.rm⟩

/-- The mode byte names a place in memory that a scale byte names as well. A displacement that stands alone is
absolute behind a scale byte. -/
structure HasBaseByte (byte : ModeByte) (displacementOnly : DisplacementOnly) : Prop where
  mode : byte.mode ≠ .register
  rm : byte.rm.val ≠ 4
  absolute : byte.mode = .withoutDisplacement → byte.rm.val = 5 → displacementOnly = .absolute

end ModeByte

variable {context : Context} {byte : ModeByte}

/-- A row without an index adds up the same with a scale as without. -/
theorem AddressForm.read_scaled {mode rm : Nat}
    (h : mode = 0 → rm = 5 → context.displacementOnly = .absolute) (shift : Nat) :
    (scaled mode shift 4 rm).read context .dword =
      (dword context.displacementOnly mode rm).read context .dword := by
  unfold scaled dword
  by_cases hbaseless : mode = 0 ∧ rm = 5
  · simp only [if_pos hbaseless, h hbaseless.1 hbaseless.2]
    rfl
  · simp only [if_neg hbaseless]
    rfl

theorem MemoryAddress.read_run_baseByte (hwidth : context.addressWidth = .dword)
    (h : byte.HasBaseByte context.displacementOnly) (shift : Fin 4) (code : List UInt8) :
    (read context byte.viaScaleByte).run ((byte.baseByte shift).toByte :: code) =
      (read context byte).run code := by
  have hscale : ScaleByte.read.run ((byte.baseByte shift).toByte :: code) =
      .ok (byte.baseByte shift, code) := by
    change Except.ok (ScaleByte.ofByte (byte.baseByte shift).toByte, code) = _
    rw [ScaleByte.ofByte_toByte]
  have hlone : byte.mode.number = 0 → byte.rm.val = 5 → context.displacementOnly = .absolute :=
    fun hmode => h.absolute ((mode_number_eq_zero_iff _).mp hmode)
  unfold read
  rw [hwidth]
  dsimp only
  rw [read32_eq_read h.rm, read32, if_pos (show byte.viaScaleByte.rm.val = 4 from rfl), readScaled_eq_read,
    run_bind, hscale]
  exact congrArg (fun reader : Reader MemoryAddress => reader.run code)
    (AddressForm.read_scaled hlone shift)

namespace Operand

variable {opcode : UInt8} {specs : List OperandSpec} {form : OperandForm} {type : OperandType}

theorem readRm_run_baseByte (hwidth : context.addressWidth = .dword)
    (h : byte.HasBaseByte context.displacementOnly) (hform : form ≠ .registerOnly) (width : Width)
    (shift : Fin 4) (code : List UInt8) :
    (readRm context byte.viaScaleByte form width).run ((byte.baseByte shift).toByte :: code) =
      (readRm context byte form width).run code := by
  have hmemory : ∀ place : ModeByte, place.mode = byte.mode →
      readRm context place form width = do return .memory (← MemoryAddress.read context place) width := by
    intro place hplace
    unfold readRm
    rw [if_neg (by simp [ModeByte.isRegister, hplace, h.mode]), if_neg hform]
  rw [hmemory byte.viaScaleByte rfl, hmemory byte rfl, run_bind, run_bind,
    MemoryAddress.read_run_baseByte hwidth h]

theorem readFirstRm_of_mem (hone : specs.countP (·.mode.usesRm) ≤ 1) (hmem : ⟨.rm form, type⟩ ∈ specs)
    (byte : ModeByte) :
    readFirstRm context (some byte) specs = some <$> readRm context byte form (context.width type) := by
  have hkept : ⟨.rm form, type⟩ ∈ specs.filter (·.mode.usesRm) := List.mem_filter.mpr ⟨hmem, rfl⟩
  rw [List.countP_eq_length_filter] at hone
  rw [readFirstRm_eq_filter]
  obtain ⟨only, honly⟩ :=
    List.length_eq_one_iff.mp (Nat.le_antisymm hone (List.length_pos_of_mem hkept))
  rw [honly] at hkept ⊢
  obtain rfl := List.mem_singleton.mp hkept
  rfl

theorem readAround_of_reg {other : ModeByte} (h : other.reg = byte.reg) (rm : Option Operand)
    (specs : List OperandSpec) :
    readAround context opcode (some other) rm specs = readAround context opcode (some byte) rm specs := by
  induction specs generalizing rm with
  | nil => cases rm <;> rfl
  | cons spec specs ih =>
    have hplain : readPlain context opcode (some other) spec =
        readPlain context opcode (some byte) spec := by
      unfold readPlain
      cases spec.mode with
      | reg =>
        change (pure (register (.ofNumber other.reg _)) : Reader Operand) = pure _
        rw [h]
      | _ => rfl
    unfold readAround
    simp only [hplain, ih]

theorem readAll_run_baseByte (hwidth : context.addressWidth = .dword)
    (h : byte.HasBaseByte context.displacementOnly) (hone : specs.countP (·.mode.usesRm) ≤ 1)
    (hmem : ⟨.rm form, type⟩ ∈ specs) (hform : form ≠ .registerOnly) (shift : Fin 4)
    (code : List UInt8) :
    (readAll context opcode (some byte.viaScaleByte) specs).run ((byte.baseByte shift).toByte :: code) =
      (readAll context opcode (some byte) specs).run code := by
  have haround : ∀ rm, readAround context opcode (some byte.viaScaleByte) rm specs =
      readAround context opcode (some byte) rm specs := 
    fun rm => readAround_of_reg (show byte.viaScaleByte.reg = byte.reg from rfl) rm specs
  unfold readAll
  rw [readFirstRm_of_mem hone hmem, readFirstRm_of_mem hone hmem, bind_map_left, bind_map_left, run_bind,
    run_bind, readRm_run_baseByte hwidth h hform]
  simp only [haround]

end Operand

theorem Descriptor.shapeOf_of_rm {descriptor : Descriptor} (hdefect : descriptor.defect? = none)
    {form : OperandForm} {type : OperandType} (hmem : ⟨.rm form, type⟩ ∈ descriptor.operands)
    {opcode : UInt8} {modeByte : Option ModeByte} {operands : List Operand} {tail rest : List UInt8}
    (h : (Operand.readAll context opcode modeByte descriptor.operands).run tail = .ok (operands, rest))
    (width : Width) (next other : Option UInt64) :
    Instruction.shapeOf descriptor.kind operands width next =
      Instruction.shapeOf descriptor.kind operands width other := by
  rcases InstructionClass.operands_cases (Descriptor.kind_defect hdefect) with
    ⟨_, _, -, -, hspecs⟩ | ⟨flow, _, _, hkind, hflow, hspecs⟩ | ⟨hkind | hkind, -⟩
  · rw [hspecs] at hmem
    simp at hmem
  · rw [hspecs] at h
    obtain ⟨operand, rfl, hoperand⟩ := Operand.ensures_readAll_rm _ tail _ h
    rw [hkind, Instruction.shapeOf_transfer hflow, Instruction.shapeOf_transfer hflow]
    cases operand with
    | immediate constant => exact absurd rfl (hoperand constant)
    | register | memory => rfl
  · rw [hkind]
    rfl
  · rw [hkind]
    rfl

def Descriptor.TakesMemory (descriptor : Descriptor) : Prop :=
  ∃ form type, form ≠ .registerOnly ∧ ⟨.rm form, type⟩ ∈ descriptor.operands

def Selection.viaScaleByte (selection : Selection) : Selection :=
  { selection with modeByte := selection.modeByte.map ModeByte.viaScaleByte }

def Reading.viaScaleByte (reading : Reading) : Reading :=
  { reading with
    body := { reading.body with selection := reading.body.selection.viaScaleByte }
    size := reading.size + 1 }

theorem Table.Grants.of_reg {table : Table} {key : OpcodeKey} {descriptor : Descriptor}
    {other : ModeByte} (h : table.Grants ⟨key, descriptor, some byte⟩) (hreg : other.reg = byte.reg) :
    table.Grants ⟨key, descriptor, some other⟩ := by
  cases h with
  | withModeByte hlookup hneeds => exact .withModeByte hlookup hneeds
  | member hlookup =>
    rw [← hreg] at hlookup ⊢
    exact .member hlookup

namespace Decoder

/-- The outcome for `code` that is one byte longer: the same instruction with that byte, unless it becomes longer
than instructions may be, or the same error with that byte available. -/
def lengthened (limit : Nat) (code : List UInt8) :
    Except DecodeError Instruction → Except DecodeError Instruction
  | .ok found =>
    if found.size < limit then .ok { found with encoding := code.take (found.size + 1) }
    else .error ⟨found.offset, .tooLong limit⟩
  | .error ⟨start, .truncated available⟩ => .error ⟨start, .truncated (available + 1)⟩
  | .error error => .error error

variable {decoder : Decoder} {run bytes : List UInt8} {map : OpcodeMap} {opcode : UInt8}
  {descriptor : Descriptor}

theorem readBehind_baseByte (hsound : decoder.table.Sound)
    (hwidth : decoder.config.addressWidth (.ofRun run) = .dword) (hspells : Spells bytes map opcode)
    (hselects : decoder.table.Selects map opcode (some byte) descriptor) (htakes : descriptor.TakesMemory)
    (h : byte.HasBaseByte decoder.config.displacementOnly) (shift : Fin 4) (tail : List UInt8) :
    decoder.readBehind run
        (bytes ++ byte.viaScaleByte.toByte :: (byte.baseByte shift).toByte :: tail) =
      (decoder.readBehind run (bytes ++ byte.toByte :: tail)).map Reading.viaScaleByte := by
  obtain ⟨form, type, hform, hmem⟩ := htakes
  obtain ⟨extension, hgrants⟩ := hselects.exists_grants
  have hone := Descriptor.countP_usesRm_le (hselects.defect hsound)
  have hshort : decoder.table.Locates (bytes ++ byte.toByte :: tail)
      ⟨⟨map, opcode, extension⟩, descriptor, some byte⟩ tail :=
    ⟨bytes, some byte.toByte, hspells, hgrants, congrArg some byte.ofByte_toByte, rfl⟩
  have hlong : decoder.table.Locates
      (bytes ++ byte.viaScaleByte.toByte :: (byte.baseByte shift).toByte :: tail)
      ⟨⟨map, opcode, extension⟩, descriptor, some byte.viaScaleByte⟩
      ((byte.baseByte shift).toByte :: tail) :=
    ⟨bytes, some byte.viaScaleByte.toByte, hspells, hgrants.of_reg rfl,
      congrArg some byte.viaScaleByte.ofByte_toByte, rfl⟩
  unfold readBehind
  rw [hlong.readBody_run, hshort.readBody_run, Selection.readOperands_run, Selection.readOperands_run]
  dsimp only
  rw [Operand.readAll_run_baseByte hwidth h hone hmem hform]
  cases hread : (Operand.readAll (decoder.config.context (.ofRun run)) opcode (some byte)
      descriptor.operands).run tail with
  | error halt => rfl
  | ok read =>
    obtain ⟨used, hused, -⟩ := Reader.run_used hread
    have hrest := congrArg List.length hused
    rw [List.length_append] at hrest
    simp only [Except.map, Reading.viaScaleByte, Selection.viaScaleByte, Option.map_some,
      List.length_append, List.length_cons, Except.ok.injEq, Reading.mk.injEq, true_and]
    omega

theorem place_viaScaleByte {code long : List UInt8} (hlength : long.length = code.length + 1) (start : Nat)
    (base : Option UInt64) {result : Except Halt Reading}
    (h : ∀ reading, result = .ok reading → reading.size ≤ code.length ∧ ∀ next other,
      Instruction.shapeOf reading.body.selection.descriptor.kind reading.body.operands
          (decoder.config.operandWidth reading.prefixes) next =
        Instruction.shapeOf reading.body.selection.descriptor.kind reading.body.operands
          (decoder.config.operandWidth reading.prefixes) other) :
    decoder.place long start base (result.map Reading.viaScaleByte) =
      lengthened decoder.config.lengthLimit long (decoder.place code start base result) := by
  rcases result with (_ | reason) | reading
  · simp only [Except.map, place, lengthened, hlength]
  · cases reason <;> rfl
  · obtain ⟨hinside, hshape⟩ := h reading rfl
    have hsize := reading.size_instruction hinside decoder.config start base
    have hinstruction : reading.viaScaleByte.instruction decoder.config long start base =
        { reading.instruction decoder.config code start base with
          encoding := long.take (reading.size + 1) } := by
      unfold Reading.instruction
      dsimp only [Reading.viaScaleByte, Selection.viaScaleByte]
      rw [hshape]
    have hlonger : reading.viaScaleByte.size = reading.size + 1 := rfl
    simp only [Except.map, place, hlonger, hinstruction]
    generalize decoder.config.lengthLimit = limit
    by_cases hover : reading.size > limit
    · rw [if_pos hover, if_pos (by omega)]
      rfl
    · rw [if_neg hover, lengthened, hsize]
      by_cases hlimit : reading.size < limit
      · rw [if_pos hlimit, if_neg (by omega)]
      · rw [if_neg hlimit, if_pos (by omega)]
        rfl

/-- Under 32-bit addressing, a base register that the mode byte names can be named by a scale byte without an
index as well, whatever its scale: the outcome is the same, one byte longer. -/
theorem decode_viaScaleByte (calls : List (OpcodeKey × Descriptor)) (config : Config)
    {run bytes : List UInt8} {map : OpcodeMap} {opcode : UInt8} {byte : ModeByte}
    {descriptor : Descriptor} (hrun : ∀ raw ∈ run, Prefix.isByte raw = true)
    (hwidth : config.addressWidth (.ofRun run) = .dword) (hspells : Spells bytes map opcode)
    (hselects : (Table.ofCalls calls).Selects map opcode (some byte) descriptor)
    (htakes : descriptor.TakesMemory) (h : byte.HasBaseByte config.displacementOnly) (shift : Fin 4)
    (front tail : List UInt8) (base : Option UInt64) :
    let decoder := Decoder.mk (.ofCalls calls) config
    let code := run ++ (bytes ++ byte.toByte :: tail)
    let long := run ++ (bytes ++ byte.viaScaleByte.toByte :: (byte.baseByte shift).toByte :: tail)
    decoder.decode (front ++ long) front.length base =
        lengthened config.lengthLimit long (decoder.decode (front ++ code) front.length base) ∧
      ∀ found again, decoder.decode (front ++ code) front.length base = .ok found →
        decoder.decode (front ++ long) front.length base = .ok again → again.size = found.size + 1 := by
  intro decoder code long
  have hsound : decoder.table.Sound := Table.sound_ofCalls calls
  have hread : decoder.readCode long = (decoder.readCode code).map Reading.viaScaleByte := by
    rw [readCode_of_spells hrun hspells, readCode_of_spells hrun hspells]
    exact readBehind_baseByte hsound hwidth hspells hselects htakes h shift tail
  have hlength : long.length = code.length + 1 := by simp [code, long, Nat.add_assoc]
  have hreaches : decoder.table.Reaches (code.dropWhile Prefix.isByte) (some byte) descriptor tail := by
    rw [hspells.dropWhile_run_append hrun]
    exact ⟨bytes, map, opcode, some byte.toByte, hspells, congrArg some byte.ofByte_toByte, hselects, rfl⟩
  have hplace : ∀ image : List UInt8, decoder.decode (front ++ image) front.length base =
      decoder.place image front.length base (decoder.readCode image) := by
    intro image
    rw [decode_eq_place _ (by simp), List.drop_left]
  have houtcome : decoder.decode (front ++ long) front.length base =
      lengthened config.lengthLimit long (decoder.decode (front ++ code) front.length base) := by
    rw [hplace, hplace, hread]
    refine place_viaScaleByte hlength _ _ fun reading hreading => ?_
    obtain ⟨-, hinside, -⟩ := readCode_take_size hreading
    obtain ⟨_, operands, _, rest, hbody, hall, -⟩ := readAll_of_readCode hreading hreaches
    obtain ⟨form, type, -, hmem⟩ := htakes
    refine ⟨hinside, fun next other => ?_⟩
    rw [hbody]
    exact Descriptor.shapeOf_of_rm (hselects.defect hsound) hmem hall _ next other
  refine ⟨houtcome, fun found again hfound hagain => ?_⟩
  obtain ⟨-, hoffset, -, hinside⟩ := decode_offset hfound
  rw [Instruction.nextOffset, hoffset, List.length_append] at hinside
  rw [houtcome, hfound, lengthened] at hagain
  split at hagain
  · cases hagain
    exact List.length_take_of_le (by omega)
  · contradiction

theorem decode_viaScaleByte_add : ∃ add : Instruction,
    small.decode [0x90, 0x66, 0x81, 0x43, 0x04, 0x34, 0x12] 1 none = .ok add ∧
      small.decode [0x90, 0x66, 0x81, 0x44, 0xA3, 0x04, 0x34, 0x12] 1 none =
        .ok { add with encoding := [0x66, 0x81, 0x44, 0xA3, 0x04, 0x34, 0x12] } ∧
      small.decode [0x90, 0x66, 0x81, 0x43, 0x04, 0x34] 1 none = .error ⟨1, .truncated 5⟩ ∧
      small.decode [0x90, 0x66, 0x81, 0x44, 0xA3, 0x04, 0x34] 1 none = .error ⟨1, .truncated 6⟩ := by
  let add : Instruction := {
    mnemonic := "add"
    shape := .operation
    operands := [.memory ⟨some (.general 3 .dword), none, 1, .disp8 4, none, .dword⟩ .word,
      .immediate ⟨0x1234, .word, false⟩]
    encoding := [0x66, 0x81, 0x43, 0x04, 0x34, 0x12]
    offset := 1
    address := none
    prefixes := { operandSize := true } }
  have hwhole : small.decode [0x90, 0x66, 0x81, 0x43, 0x04, 0x34, 0x12] 1 none = .ok add := by
    decide +kernel
  have hcut : small.decode [0x90, 0x66, 0x81, 0x43, 0x04, 0x34] 1 none = .error ⟨1, .truncated 5⟩ := by
    decide +kernel
  have hrun : ∀ raw ∈ [(0x66 : UInt8)], Prefix.isByte raw = true := List.forall_mem_singleton.mpr rfl
  have hlookup : small.table.lookup ⟨.primary, 0x81, some 0⟩ =
      some (Builtin.general "add" [Builtin.Ev, Builtin.Iv]) := by decide +kernel
  have hselects : small.table.Selects .primary 0x81 (some ⟨.shortDisplacement, 0, 3⟩)
      (Builtin.general "add" [Builtin.Ev, Builtin.Iv]) := .member hlookup
  have hlonger := fun tail => (decode_viaScaleByte _ {} hrun rfl (.primary rfl (by decide)) hselects
    ⟨.any, .variable, by decide, by decide⟩ ⟨by decide, by decide, by decide⟩ 2 [0x90] tail none).1
  exact ⟨add, hwhole, (hlonger [0x04, 0x34, 0x12]).trans (congrArg _ hwhole), hcut,
    (hlonger [0x04, 0x34]).trans (congrArg _ hcut)⟩

end Decoder
end IA32
