import Mathlib.Data.Int.ModEq
import IA32.Proofs.OperandOrder

set_option autoImplicit false

/-!
# Short forms

Some instructions with a constant or a distance have two encodings: one in which a byte stands for it, to be
extended by its sign, and one in which it stands in full. Where the full field holds what the byte is extended
to, both are decoded to the same instruction, but that a full constant is told from zero up.
-/
namespace IA32

open Reader

theorem Width.modulus_eq (width : Width) :
    width.modulus = match width with
      | .byte => 0x100
      | .word => 0x10000
      | .dword => 0x100000000 := by
  cases width <;> rfl

def signExtended (width : Width) (byte : UInt8) : List UInt8 :=
  byte :: List.replicate (width.bytes - 1) (if byte.toNat < 128 then 0x00 else 0xFF)

theorem length_signExtended (width : Width) (byte : UInt8) :
    (signExtended width byte).length = width.bytes := by
  cases width <;> rfl

theorem littleEndian_signExtended (width : Width) (byte : UInt8) :
    littleEndian (signExtended width byte) =
      byte.toNat + if byte.toNat < 128 then 0 else width.modulus - Width.byte.modulus := by
  rw [Width.modulus_eq, Width.modulus_eq]
  unfold signExtended
  cases width <;> split <;> simp [littleEndian, Width.bytes, List.replicate]

theorem value_signed_byte (byte : UInt8) :
    (Immediate.signed byte.toNat .byte).value = Int.bmod byte.toNat 0x100 := by
  simp only [Immediate.signed, Width.modulus_eq]

theorem signed_signExtended (width : Width) (byte : UInt8) :
    (Immediate.signed (littleEndian (signExtended width byte)) width).value =
      (Immediate.signed byte.toNat .byte).value := by
  have hbyte := byte.toNat_lt
  simp only [Immediate.signed, littleEndian_signExtended, Width.modulus_eq, Int.bmod]
  cases width <;> split <;> dsimp only <;> omega

theorem signed_modEq_unsigned (width : Width) (byte : UInt8) :
    (Immediate.signed byte.toNat .byte).value ≡
      (Immediate.unsigned (littleEndian (signExtended width byte)) width).value [ZMOD width.modulus] := by
  rw [← signed_signExtended width byte]
  unfold Int.ModEq Immediate.signed Immediate.unsigned
  rw [Int.bmod_emod, Int.natCast_mod, Int.emod_emod]

/-- The two forms of the same instruction with a constant: `mode` and `more` are mode byte, scale byte and
displacement of its r/m operand. -/
inductive ConstantForms (sizes : Sizes) (byte : UInt8) : List UInt8 → List UInt8 → Prop where
  | arithmetic {mode : UInt8} {more : List UInt8} :
      more.length = (ModeByte.ofByte mode).addressLength sizes.address more.head? →
      ConstantForms sizes byte (0x83 :: mode :: (more ++ [byte]))
        (0x81 :: mode :: (more ++ signExtended sizes.operand byte))
  | product {mode : UInt8} {more : List UInt8} :
      more.length = (ModeByte.ofByte mode).addressLength sizes.address more.head? →
      ConstantForms sizes byte (0x6B :: mode :: (more ++ [byte]))
        (0x69 :: mode :: (more ++ signExtended sizes.operand byte))
  | push : ConstantForms sizes byte [0x6A, byte] (0x68 :: signExtended sizes.operand byte)

inductive JumpForms (sizes : Sizes) (byte : UInt8) : List UInt8 → List UInt8 → Prop where
  | always : JumpForms sizes byte [0xEB, byte] (0xE9 :: signExtended sizes.operand byte)
  | conditional {code : Nat} : code < 16 →
      JumpForms sizes byte [.ofNat (0x70 + code), byte]
        (escapeByte :: .ofNat (0x80 + code) :: signExtended sizes.operand byte)

/-- The instructions are the same but for their last operands: that of the one is the byte with its sign, and
that of the other is congruent to it. -/
structure Instruction.SameConstant (width : Width) (byte : UInt8) (found other : Instruction) : Prop where
  mnemonic : other.mnemonic = found.mnemonic
  operands : ∃ init first second, found.operands = init ++ [.immediate first] ∧
    other.operands = init ++ [.immediate second] ∧ first.value = Int.bmod byte.toNat 0x100 ∧
    first.value ≡ second.value [ZMOD width.modulus]

structure Instruction.SameJump (byte : UInt8) (found other : Instruction) : Prop where
  mnemonic : other.mnemonic = found.mnemonic
  shape : ∃ flow,
    found.shape = .transfer flow (some (.relative (Int.bmod byte.toNat 0x100) found.branchTarget)) ∧
    other.shape = .transfer flow (some (.relative (Int.bmod byte.toNat 0x100) other.branchTarget))
  branchTarget : other.nextAddress = found.nextAddress → other.branchTarget = found.branchTarget

theorem AddressingMode.usesRm_of_isField {mode : AddressingMode} (h : mode.isField = true) :
    mode.usesRm = false := by
  cases mode with
  | rm form => contradiction
  | reg | immediate | relative | opcodeRegister | fixedRegister | one | offset => rfl

theorem Reader.run_number_append (field rest : List UInt8) :
    (number field.length).run (field ++ rest) = .ok (littleEndian field, rest) := by
  rw [number, run_take_of_le (by simp), List.take_left, List.drop_left]
  rfl

theorem fits_of_forms {specs : List OperandSpec}
    (h : ∀ spec ∈ specs, spec.mode = .rm .any ∨ spec.mode = .reg) (modeByte : Option ModeByte) :
    Fits specs modeByte := by
  rintro byte fault - hmisfit
  cases hmisfit with
  | registerForm _ hmem | memoryForm _ hmem => simpa using h _ hmem

namespace Operand

variable {context : Context} {opcode : UInt8} {modeByte : Option ModeByte} {specs : List OperandSpec}
  {spec : OperandSpec} {type : OperandType} {field more : List UInt8}

theorem readAround_concat (context : Context) (opcode : UInt8) (modeByte : Option ModeByte)
    (rm : Option Operand) (specs : List OperandSpec) (hfield : spec.mode.isField = true) :
    readAround context opcode modeByte rm (specs ++ [spec]) = do
      let operands ← readAround context opcode modeByte rm specs
      return operands ++ [← readValue context spec] := by
  induction specs generalizing rm with
  | nil =>
    simp only [List.nil_append, readAround, AddressingMode.usesRm_of_isField hfield, Bool.false_eq_true,
      if_false, readPlain_of_field hfield, pure_bind]
  | cons other specs ih =>
    rw [List.cons_append]
    unfold readAround
    split
    · cases rm with
      | none => rfl
      | some operand => simp only [ih, bind_assoc, pure_bind, List.cons_append]
    · simp only [ih, bind_assoc, pure_bind, List.cons_append]

/-- An operand in a field that stands behind the others is read behind them. -/
theorem readAll_concat (context : Context) (opcode : UInt8) (modeByte : Option ModeByte)
    (specs : List OperandSpec) (hfield : spec.mode.isField = true) :
    readAll context opcode modeByte (specs ++ [spec]) = do
      let operands ← readAll context opcode modeByte specs
      return operands ++ [← readValue context spec] := by
  have hplain := AddressingMode.usesRm_of_isField hfield
  have hfirst : readFirstRm context modeByte (specs ++ [spec]) = readFirstRm context modeByte specs := by
    rw [readFirstRm_eq_filter, List.filter_append, List.filter_cons_of_neg (by simp [hplain]),
      List.filter_nil, List.append_nil, ← readFirstRm_eq_filter]
  unfold readAll
  simp only [hfirst, readAround_concat _ _ _ _ _ hfield, bind_assoc]

theorem exists_readAll (hwidth : context.addressWidth ≠ .byte)
    (hone : specs.countP (·.mode.usesRm) ≤ 1)
    (hbyte : ∀ spec ∈ specs, spec.mode.usesModeByte = true → modeByte.isSome = true)
    (hfits : Fits specs modeByte) (hfree : ∀ spec ∈ specs, spec.mode ≠ .opcodeRegister)
    (hlength : more.length = context.sizes.tailLength specs modeByte more.head?) :
    ∃ operands, operands.length = specs.length ∧ ∀ opcode rest,
      (readAll context opcode modeByte specs).run (more ++ rest) = .ok (operands, rest) := by
  have htakes : Takes (readAll context 0 modeByte specs) more
      (context.sizes.tailLength specs modeByte more.head?) (·.length = specs.length) :=
    takes_readAll hwidth hone hbyte hfits
  obtain ⟨operands, hread, hcount⟩ := htakes.1 (Nat.le_of_eq hlength.symm)
  refine ⟨operands, hcount, fun opcode rest => ?_⟩
  rw [readAll_of_opcode context modeByte 0 opcode hfree]
  have hdecided : (readAll context 0 modeByte specs).run more ≠ .error .endOfCode := by
    rw [hread]
    simp
  rw [run_append_of_decided hdecided, hread, ← hlength, List.drop_length]
  rfl

def InField (context : Context) (spec : OperandSpec) (field : List UInt8) (operand : Operand) : Prop :=
  spec.mode.isField = true ∧
    ∀ rest, (readValue context spec).run (field ++ rest) = .ok (operand, rest)

theorem inField_immediate (h : field.length = (context.encodedWidth type).bytes) :
    InField context ⟨.immediate, type⟩ field
      (.immediate (immediateOf type (littleEndian field) (context.encodedWidth type))) := by
  refine ⟨rfl, fun rest => ?_⟩
  change (number (context.encodedWidth type).bytes >>= _).run _ = _
  rw [run_bind, ← h, run_number_append]
  rfl

theorem inField_relative (h : field.length = (context.encodedWidth type).bytes) :
    InField context ⟨.relative, type⟩ field
      (.immediate (.signed (littleEndian field) (context.encodedWidth type))) := by
  refine ⟨rfl, fun rest => ?_⟩
  change (number (context.encodedWidth type).bytes >>= _).run _ = _
  rw [run_bind, ← h, run_number_append]
  rfl

end Operand

def Descriptor.withLast (descriptor : Descriptor) (spec : OperandSpec) : Descriptor :=
  { descriptor with operands := descriptor.operands ++ [spec] }

namespace Table

variable {table : Table} {context : Context} {word : List UInt8} {descriptor : Descriptor}
  {operands : List Operand}

theorem reaches_primary {opcode : UInt8} (raw : Option UInt8)
    (hfree : OpcodeKey.isReserved (.primary opcode) = false)
    (hselects : table.Selects .primary opcode (raw.map .ofByte) descriptor) :
    table.Reaches (opcode :: raw.toList) (raw.map .ofByte) descriptor [] := by
  obtain ⟨hbyte, hescape⟩ := OpcodeKey.isReserved_primary_eq_false_iff.mp hfree
  refine ⟨[opcode], .primary, opcode, raw, .primary hbyte hescape, rfl, hselects, ?_⟩
  rw [List.append_nil]
  rfl

def Holds (table : Table) (context : Context) (word : List UInt8) (descriptor : Descriptor)
    (operands : List Operand) : Prop :=
  ∀ rest, ∃ selection tail, selection.descriptor = descriptor ∧
    table.Locates (word ++ rest) selection tail ∧
    (selection.readOperands context).run tail = .ok (⟨selection, operands⟩, rest)

/-- A word of the bytes that select, the bytes of some operands and the field of a last one. -/
theorem holds_withLast {head more field : List UInt8} {modeByte : Option ModeByte} {spec : OperandSpec}
    {init : List Operand} {last : Operand}
    (hreaches : table.Reaches head modeByte (descriptor.withLast spec) [])
    (hinit : ∀ opcode rest, (Operand.readAll context opcode modeByte descriptor.operands).run
      (more ++ rest) = .ok (init, rest))
    (hlast : Operand.InField context spec field last) :
    table.Holds context (head ++ (more ++ field)) (descriptor.withLast spec) (init ++ [last]) := by
  intro rest
  obtain ⟨key, bytes, byte, hspells, hgrants, hbyte, rfl⟩ := hreaches.exists_locates
  refine ⟨_, more ++ (field ++ rest), rfl, ⟨bytes, byte, hspells, hgrants, hbyte, ?_⟩, ?_⟩
  · simp only [List.append_assoc, List.nil_append]
  · rw [Selection.readOperands_run]
    change ((Operand.readAll context key.opcode modeByte (descriptor.operands ++ [spec])).run _).map _ = _
    rw [Operand.readAll_concat _ _ _ _ hlast.1, run_bind, hinit]
    change ((Operand.readValue context spec >>= _).run (field ++ rest)).map _ = _
    rw [run_bind, hlast.2]
    rfl

/-- Two instructions that differ in the field of their last operand hold the same operands in front of it. -/
theorem exists_holds_withLast {shortHead longHead more shortField longField : List UInt8}
    {modeByte : Option ModeByte} {first second : OperandSpec} {short long : Operand}
    (hsound : table.Sound) (hwidth : context.addressWidth ≠ .byte)
    (hshort : table.Reaches shortHead modeByte (descriptor.withLast first) [])
    (hlong : table.Reaches longHead modeByte (descriptor.withLast second) [])
    (hforms : ∀ spec ∈ descriptor.operands, spec.mode = .rm .any ∨ spec.mode = .reg)
    (hlength : more.length = context.sizes.tailLength descriptor.operands modeByte more.head?)
    (hshortField : Operand.InField context first shortField short)
    (hlongField : Operand.InField context second longField long) :
    ∃ init, init.length = descriptor.operands.length ∧
      table.Holds context (shortHead ++ (more ++ shortField)) (descriptor.withLast first)
        (init ++ [short]) ∧
      table.Holds context (longHead ++ (more ++ longField)) (descriptor.withLast second)
        (init ++ [long]) := by
  obtain ⟨_, map, opcode, _, -, -, hselects, -⟩ := id hshort
  have hone : descriptor.operands.countP (·.mode.usesRm) ≤ 1 :=
    (List.sublist_append_left _ _).countP_le.trans
      (Descriptor.countP_usesRm_le (hselects.defect hsound))
  have hbyte : ∀ spec ∈ descriptor.operands, spec.mode.usesModeByte = true → modeByte.isSome = true :=
    fun spec hmem => hselects.isSome_of_usesModeByte spec (List.mem_append_left _ hmem)
  have hfree : ∀ spec ∈ descriptor.operands, spec.mode ≠ .opcodeRegister := by
    intro spec hmem hmode
    rcases hforms spec hmem with h | h <;> rw [hmode] at h <;> contradiction
  obtain ⟨init, hcount, hinit⟩ :=
    Operand.exists_readAll hwidth hone hbyte (fits_of_forms hforms modeByte) hfree hlength
  exact ⟨init, hcount, holds_withLast hshort hinit hshortField, holds_withLast hlong hinit hlongField⟩

end Table

structure Instruction.MadeOf (instruction : Instruction) (width : Width) (descriptor : Descriptor)
    (operands : List Operand) : Prop where
  mnemonic : instruction.mnemonic = descriptor.mnemonicFor width
  shape : instruction.shape = shapeOf descriptor.kind operands width instruction.nextAddress
  operands : instruction.operands = operands

namespace Decoder

variable {decoder : Decoder} {run word short long : List UInt8} {descriptor other : Descriptor}
  {operands others : List Operand}

theorem exists_decode_of_holds (hrun : ∀ byte ∈ run, Prefix.isByte byte = true)
    (hholds : decoder.table.Holds (decoder.config.context (.ofRun run)) word descriptor operands)
    (hlimit : (run ++ word).length ≤ decoder.config.lengthLimit) (front rest : List UInt8)
    (base : Option UInt64) :
    ∃ found, decoder.decode (front ++ (run ++ word ++ rest)) front.length base = .ok found ∧
      found.encoding = run ++ word ∧
      found.MadeOf (decoder.config.operandWidth (.ofRun run)) descriptor operands := by
  obtain ⟨selection, tail, rfl, hlocates, hread⟩ := hholds rest
  have hdrop : (front ++ (run ++ word ++ rest)).drop front.length = run ++ (word ++ rest) := by
    rw [List.drop_left, List.append_assoc]
  have hcode : decoder.readCode (run ++ (word ++ rest)) =
      .ok ⟨.ofRun run, ⟨selection, operands⟩, (run ++ word).length⟩ := by
    obtain ⟨bytes, _, hspells, -, -, hword⟩ := id hlocates
    rw [hword, readCode_of_spells hrun hspells, ← hword]
    unfold readBehind
    rw [hlocates.readBody_run, hread]
    simp [Except.map]
  rw [← hdrop] at hcode
  obtain ⟨-, hinside, -⟩ := readCode_take_size hcode
  refine ⟨_, decode_eq_ok_iff.mpr ⟨_, hcode, hlimit, rfl⟩, ?_, rfl, ?_, rfl⟩
  · unfold Reading.instruction
    rw [hdrop, ← List.append_assoc, List.take_left]
  · unfold Instruction.nextAddress
    rw [Reading.size_instruction hinside]
    rfl

def Pairs (decoder : Decoder) (short long : List UInt8) (related : Instruction → Instruction → Prop) :
    Prop :=
  ∀ (front rest back more : List UInt8) (base origin : Option UInt64), ∃ found other,
    decoder.decode (front ++ (short ++ rest)) front.length base = .ok found ∧
    decoder.decode (back ++ (long ++ more)) back.length origin = .ok other ∧
    found.encoding = short ∧ other.encoding = long ∧ related found other

theorem pairs_of_holds {related : Instruction → Instruction → Prop}
    (hrun : ∀ byte ∈ run, Prefix.isByte byte = true)
    (hshort : decoder.table.Holds (decoder.config.context (.ofRun run)) short descriptor operands)
    (hlong : decoder.table.Holds (decoder.config.context (.ofRun run)) long other others)
    (hshortLimit : (run ++ short).length ≤ decoder.config.lengthLimit)
    (hlongLimit : (run ++ long).length ≤ decoder.config.lengthLimit)
    (hrelated : ∀ found second : Instruction,
      found.MadeOf (decoder.config.operandWidth (.ofRun run)) descriptor operands →
      second.MadeOf (decoder.config.operandWidth (.ofRun run)) other others → related found second) :
    decoder.Pairs (run ++ short) (run ++ long) related := by
  intro front rest back more base origin
  obtain ⟨found, hfound, hencoding, hmade⟩ :=
    exists_decode_of_holds hrun hshort hshortLimit front rest base
  obtain ⟨second, hsecond, hother, hsecondMade⟩ :=
    exists_decode_of_holds hrun hlong hlongLimit back more origin
  exact ⟨found, second, hfound, hsecond, hencoding, hother, hrelated _ _ hmade hsecondMade⟩

end Decoder

def Table.TakesEither (table : Table) (short long : OpcodeKey) (descriptor : Descriptor)
    (first second : OperandSpec) : Prop :=
  table.lookup short = some (descriptor.withLast first) ∧
    table.lookup long = some (descriptor.withLast second)

namespace Builtin

structure HasShortForms (table : Table) : Prop where
  arithmetic : ∀ extension < 8, ∃ name,
    table.TakesEither ⟨.primary, 0x83, some extension⟩ ⟨.primary, 0x81, some extension⟩
      (general name [Ev]) Ibs Iv
  product : table.TakesEither (.primary 0x6B) (.primary 0x69) (general "imul" [Gv, Ev]) Ibs Iv
  push : table.TakesEither (.primary 0x6A) (.primary 0x68) (general "push" []) Ibs Iv
  jump : table.TakesEither (.primary 0xEB) (.primary 0xE9) (transfer "jmp" .jump []) Jb Jv
  conditional : ∀ code < 16, ∃ name condition,
    table.TakesEither (.primary (.ofNat (0x70 + code))) (.secondary (.ofNat (0x80 + code)))
      (transfer name (.conditionalJump condition) []) Jb Jv

theorem hasShortForms_builtin : HasShortForms .builtin := by
  have hlookup : ∀ entry : Registration, entry ∈ registrations →
      Table.builtin.lookup entry.1 = some entry.2 := fun _ => (Table.lookup_builtin_iff _ _).mpr
  simp only [registrations, List.mem_append] at hlookup
  have harithmetic : ∀ entry ∈ arithmetic, Table.builtin.lookup entry.1 = some entry.2 :=
    fun _ => Table.lookup_of_mem_arithmetic
  generalize Table.builtin = table at hlookup harithmetic ⊢
  have hconditional : ∀ entry ∈ conditional, table.lookup entry.1 = some entry.2 :=
    fun entry h => hlookup entry (by simp only [h, true_or, or_true])
  have hnumbers : arithmeticNames.map Prod.fst = List.range 8 := rfl
  have hcodes : conditionSuffixes.map Prod.fst = List.range 16 := rfl
  refine {
    arithmetic := fun extension hlt => ?_
    product := ?_
    push := ?_
    jump := ?_
    conditional := fun code hlt => ?_ }
  · obtain ⟨⟨number, name⟩, hname, rfl⟩ := List.mem_map.mp (hnumbers ▸ List.mem_range.mpr hlt)
    have hshort : member 0x83 number (general name [Ev, Ibs]) ∈ arithmetic :=
      List.mem_flatMap.mpr ⟨_, hname, by simp⟩
    have hlong : member 0x81 number (general name [Ev, Iv]) ∈ arithmetic :=
      List.mem_flatMap.mpr ⟨_, hname, by simp⟩
    exact ⟨name, harithmetic _ hshort, harithmetic _ hlong⟩
  · exact ⟨hlookup (primary 0x6B (general "imul" [Gv, Ev, Ibs])) (by simp [products]),
      hlookup (primary 0x69 (general "imul" [Gv, Ev, Iv])) (by simp [products])⟩
  · exact ⟨hlookup (primary 0x6A (general "push" [Ibs])) (by simp [moves]),
      hlookup (primary 0x68 (general "push" [Iv])) (by simp [moves])⟩
  · exact ⟨hlookup (primary 0xEB (transfer "jmp" .jump [Jb])) (by simp [branches]),
      hlookup (primary 0xE9 (transfer "jmp" .jump [Jv])) (by simp [branches])⟩
  · obtain ⟨⟨number, suffix⟩, hsuffix, rfl⟩ := List.mem_map.mp (hcodes ▸ List.mem_range.mpr hlt)
    have hshort : primary (0x70 + number)
        (transfer ("j" ++ suffix) (.conditionalJump (.ofCode number)) [Jb]) ∈ conditional :=
      List.mem_flatMap.mpr ⟨_, hsuffix, by simp⟩
    have hlong : secondary (0x80 + number)
        (transfer ("j" ++ suffix) (.conditionalJump (.ofCode number)) [Jv]) ∈ conditional :=
      List.mem_flatMap.mpr ⟨_, hsuffix, by simp⟩
    exact ⟨_, _, hconditional _ hshort, hconditional _ hlong⟩

end Builtin

namespace Instruction

variable {found other : Instruction} {width : Width} {byte : UInt8} {descriptor : Descriptor}
  {first second : OperandSpec} {init : List Operand}

theorem sameConstant_of_madeOf
    (hfound : found.MadeOf width (descriptor.withLast first)
      (init ++ [.immediate (.signed byte.toNat .byte)]))
    (hother : other.MadeOf width (descriptor.withLast second)
      (init ++ [.immediate (.unsigned (littleEndian (signExtended width byte)) width)])) :
    SameConstant width byte found other where
  mnemonic := hother.mnemonic.trans hfound.mnemonic.symm
  operands := ⟨init, _, _, hfound.operands, hother.operands, value_signed_byte byte,
    signed_modEq_unsigned width byte⟩

theorem sameJump_of_madeOf {flow : Flow} (hkind : descriptor.kind = .transfer flow) (hflow : flow ≠ .ret)
    (hfound : found.MadeOf width (descriptor.withLast first) [.immediate (.signed byte.toNat .byte)])
    (hother : other.MadeOf width (descriptor.withLast second)
      [.immediate (.signed (littleEndian (signExtended width byte)) width)]) :
    SameJump byte found other := by
  have hshape : found.shape = shapeOf (.transfer flow) _ _ _ := hkind ▸ hfound.shape
  have hotherShape : other.shape = shapeOf (.transfer flow) _ _ _ := hkind ▸ hother.shape
  obtain ⟨hrelative, htarget⟩ := branchTarget_of_relative hflow hshape
  obtain ⟨hotherRelative, hotherTarget⟩ := branchTarget_of_relative hflow hotherShape
  rw [signed_signExtended, value_signed_byte] at hotherRelative hotherTarget
  rw [value_signed_byte] at hrelative htarget
  refine ⟨hother.mnemonic.trans hfound.mnemonic.symm, ⟨flow, hrelative, hotherRelative⟩, ?_⟩
  intro hnext
  rw [htarget, hotherTarget, hnext]

end Instruction

namespace Decoder

open Builtin

variable {decoder : Decoder} {run short long : List UInt8} {byte : UInt8} {modeByte : Option ModeByte}
  {descriptor : Descriptor}

theorem pairs_constant (shortHead longHead more : List UInt8) (hsound : decoder.table.Sound)
    (hrun : ∀ byte ∈ run, Prefix.isByte byte = true)
    (hshort : decoder.table.Reaches shortHead modeByte (descriptor.withLast Ibs) [])
    (hlong : decoder.table.Reaches longHead modeByte (descriptor.withLast Iv) [])
    (hforms : ∀ spec ∈ descriptor.operands, spec.mode = .rm .any ∨ spec.mode = .reg)
    (hlength : more.length =
      (decoder.config.sizes run).tailLength descriptor.operands modeByte more.head?)
    (hshortLimit : (run ++ (shortHead ++ (more ++ [byte]))).length ≤ decoder.config.lengthLimit)
    (hlongLimit : (run ++ (longHead ++ (more ++
      signExtended (decoder.config.sizes run).operand byte))).length ≤ decoder.config.lengthLimit) :
    decoder.Pairs (run ++ (shortHead ++ (more ++ [byte])))
      (run ++ (longHead ++ (more ++ signExtended (decoder.config.sizes run).operand byte)))
      (Instruction.SameConstant (decoder.config.sizes run).operand byte) := by
  rw [← decoder.config.sizes_context] at hlength hlongLimit ⊢
  have hbyte : Operand.InField (decoder.config.context (.ofRun run)) Ibs [byte]
      (.immediate (.signed byte.toNat .byte)) := Operand.inField_immediate rfl
  have hfull := Operand.inField_immediate (length_signExtended
    ((decoder.config.context (.ofRun run)).encodedWidth .variable) byte)
  obtain ⟨init, -, hfirst, hsecond⟩ := Table.exists_holds_withLast hsound
    (decoder.config.addressWidth_context_ne _) hshort hlong hforms hlength hbyte hfull
  exact pairs_of_holds hrun hfirst hsecond hshortLimit hlongLimit fun found second =>
    Instruction.sameConstant_of_madeOf

theorem pairs_jump {flow : Flow} (shortHead longHead : List UInt8) (hsound : decoder.table.Sound)
    (hrun : ∀ byte ∈ run, Prefix.isByte byte = true) (hflow : flow ≠ .ret)
    (hkind : descriptor.kind = .transfer flow) (hnone : descriptor.operands = [])
    (hshort : decoder.table.Reaches shortHead none (descriptor.withLast Jb) [])
    (hlong : decoder.table.Reaches longHead none (descriptor.withLast Jv) [])
    (hshortLimit : (run ++ (shortHead ++ [byte])).length ≤ decoder.config.lengthLimit)
    (hlongLimit : (run ++ (longHead ++ signExtended (decoder.config.sizes run).operand byte)).length ≤
      decoder.config.lengthLimit) :
    decoder.Pairs (run ++ (shortHead ++ [byte]))
      (run ++ (longHead ++ signExtended (decoder.config.sizes run).operand byte))
      (Instruction.SameJump byte) := by
  rw [← decoder.config.sizes_context] at hlongLimit ⊢
  have hbyte : Operand.InField (decoder.config.context (.ofRun run)) Jb [byte]
      (.immediate (.signed byte.toNat .byte)) := Operand.inField_relative rfl
  have hfull := Operand.inField_relative (length_signExtended
    ((decoder.config.context (.ofRun run)).encodedWidth .variable) byte)
  have hforms : ∀ spec ∈ descriptor.operands, spec.mode = .rm .any ∨ spec.mode = .reg := by
    simp [hnone]
  have hlength : ([] : List UInt8).length =
      (decoder.config.context (.ofRun run)).sizes.tailLength descriptor.operands none none := by
    rw [hnone]
    rfl
  obtain ⟨init, hcount, hfirst, hsecond⟩ := Table.exists_holds_withLast hsound
    (decoder.config.addressWidth_context_ne _) hshort hlong hforms hlength hbyte hfull
  obtain rfl : init = [] := by
    rw [hnone] at hcount
    exact List.eq_nil_of_length_eq_zero hcount
  exact pairs_of_holds hrun hfirst hsecond hshortLimit hlongLimit fun found second =>
    Instruction.sameJump_of_madeOf hkind hflow

theorem pairs_of_constantForms (hsound : decoder.table.Sound) (hforms : HasShortForms decoder.table)
    (hrun : ∀ byte ∈ run, Prefix.isByte byte = true)
    (h : ConstantForms (decoder.config.sizes run) byte short long)
    (hshort : (run ++ short).length ≤ decoder.config.lengthLimit)
    (hlong : (run ++ long).length ≤ decoder.config.lengthLimit) :
    decoder.Pairs (run ++ short) (run ++ long)
      (Instruction.SameConstant (decoder.config.sizes run).operand byte) := by
  cases h with
  | @arithmetic mode more hmore =>
    obtain ⟨name, hfirst, hsecond⟩ := hforms.arithmetic (ModeByte.ofByte mode).reg.val (Fin.isLt _)
    have hbyte := Table.reaches_primary (some mode) (by decide) (.member hfirst)
    have hfull := Table.reaches_primary (some mode) (by decide) (.member hsecond)
    exact pairs_constant [0x83, mode] [0x81, mode] more hsound hrun hbyte hfull (by simp [general, Ev])
      hmore hshort hlong
  | @product mode more hmore =>
    obtain ⟨hfirst, hsecond⟩ := hforms.product
    have hbyte := Table.reaches_primary (some mode) (by decide) (.withModeByte hfirst rfl)
    have hfull := Table.reaches_primary (some mode) (by decide) (.withModeByte hsecond rfl)
    exact pairs_constant [0x6B, mode] [0x69, mode] more hsound hrun hbyte hfull
      (by simp [general, Ev, Gv]) hmore hshort hlong
  | push =>
    obtain ⟨hfirst, hsecond⟩ := hforms.push
    have hbyte := Table.reaches_primary none (by decide) (.plain hfirst rfl)
    have hfull := Table.reaches_primary none (by decide) (.plain hsecond rfl)
    have hmore : ([] : List UInt8).length =
      (decoder.config.sizes run).tailLength (general "push" []).operands none none := rfl
    exact pairs_constant [0x6A] [0x68] [] hsound hrun hbyte hfull (by simp [general]) hmore hshort hlong

theorem pairs_of_jumpForms (hsound : decoder.table.Sound) (hforms : HasShortForms decoder.table)
    (hrun : ∀ byte ∈ run, Prefix.isByte byte = true)
    (h : JumpForms (decoder.config.sizes run) byte short long)
    (hshort : (run ++ short).length ≤ decoder.config.lengthLimit)
    (hlong : (run ++ long).length ≤ decoder.config.lengthLimit) :
    decoder.Pairs (run ++ short) (run ++ long) (Instruction.SameJump byte) := by
  cases h with
  | always =>
    obtain ⟨hfirst, hsecond⟩ := hforms.jump
    have hbyte := Table.reaches_primary none (by decide) (.plain hfirst rfl)
    have hfull := Table.reaches_primary none (by decide) (.plain hsecond rfl)
    exact pairs_jump [0xEB] [0xE9] hsound hrun (by decide) rfl rfl hbyte hfull hshort hlong
  | @conditional code hcode =>
    obtain ⟨name, condition, hfirst, hsecond⟩ := hforms.conditional code hcode
    have hfree : ∀ code < 16, OpcodeKey.isReserved (.primary (.ofNat (0x70 + code))) = false := by
      decide
    have hbyte := Table.reaches_primary none (hfree code hcode) (.plain hfirst rfl)
    have hfull : decoder.table.Reaches [escapeByte, .ofNat (0x80 + code)] none _ [] :=
      ⟨_, .secondary, _, none, .secondary, rfl, .plain hsecond rfl, rfl⟩
    exact pairs_jump [_] [_, _] hsound hrun (by simp) rfl rfl hbyte hfull hshort hlong

/-- The built-in instructions that come with a byte and in full are decoded to the same from both, with every
prefix run and in code of both sizes: arithmetic, products and pushes but for their constants, which are
congruent, and jumps with their distances. -/
theorem decode_shortForms (config : Config) {run : List UInt8} {byte : UInt8} {short long : List UInt8}
    (hrun : ∀ byte ∈ run, Prefix.isByte byte = true)
    (hshort : (run ++ short).length ≤ config.lengthLimit)
    (hlong : (run ++ long).length ≤ config.lengthLimit) :
    (ConstantForms (config.sizes run) byte short long →
      (Decoder.mk .builtin config).Pairs (run ++ short) (run ++ long)
        (Instruction.SameConstant (config.sizes run).operand byte)) ∧
    (JumpForms (config.sizes run) byte short long →
      (Decoder.mk .builtin config).Pairs (run ++ short) (run ++ long) (Instruction.SameJump byte)) := by
  have hsound := Table.sound_builtin
  have hforms := hasShortForms_builtin
  generalize Table.builtin = table at hsound hforms ⊢
  exact ⟨fun h => pairs_of_constantForms hsound hforms hrun h hshort hlong,
    fun h => pairs_of_jumpForms hsound hforms hrun h hshort hlong⟩

theorem decode_shortForms_add :
    (Decoder.mk .builtin {}).Pairs [0x66, 0x83, 0xC0, 0x80] [0x66, 0x81, 0xC0, 0x80, 0xFF]
        (Instruction.SameConstant .word 0x80) ∧
      (Decoder.mk .builtin {}).Pairs [0xEB, 0x80] [0xE9, 0x80, 0xFF, 0xFF, 0xFF]
        (Instruction.SameJump 0x80) := by
  have hadd : ConstantForms (Config.sizes {} [0x66]) 0x80 [0x83, 0xC0, 0x80] [0x81, 0xC0, 0x80, 0xFF] :=
    @ConstantForms.arithmetic (Config.sizes {} [0x66]) 0x80 0xC0 [] rfl
  have hjump : JumpForms (Config.sizes {} []) 0x80 [0xEB, 0x80] [0xE9, 0x80, 0xFF, 0xFF, 0xFF] := .always
  exact ⟨(decode_shortForms {} (List.forall_mem_singleton.mpr rfl) (by decide) (by decide)).1 hadd,
    (decode_shortForms {} (by simp) (by decide) (by decide)).2 hjump⟩

end Decoder
end IA32
