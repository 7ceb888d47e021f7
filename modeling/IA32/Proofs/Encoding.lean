import IA32.Config
import IA32.DecodeError
import IA32.ModeByte
import IA32.Proofs.BuiltTable

set_option autoImplicit false

/-!
# Encodings

The grammar of instructions, told without a reader: `Encodes` takes the bytes of an instruction apart into
prefixes, opcode, mode byte, scale byte, displacement and fields, and says of each part when it is there
and how long it is.
-/
namespace IA32

inductive Spells : List UInt8 → OpcodeMap → UInt8 → Prop where
  | primary {byte : UInt8} : Prefix.isByte byte = false → byte ≠ escapeByte →
      Spells [byte] .primary byte
  | secondary {byte : UInt8} : Spells [escapeByte, byte] .secondary byte

/-- The descriptor registered for an opcode, and the mode byte if the descriptor is that of a group member
or has an operand in the mode byte. -/
inductive Table.Selects (table : Table) (map : OpcodeMap) (opcode : UInt8) :
    Option ModeByte → Descriptor → Prop where
  | plain {descriptor : Descriptor} : table.lookup ⟨map, opcode, none⟩ = some descriptor →
      descriptor.needsModeByte = false → Selects table map opcode none descriptor
  | withModeByte {descriptor : Descriptor} {byte : ModeByte} :
      table.lookup ⟨map, opcode, none⟩ = some descriptor →
      descriptor.needsModeByte = true → Selects table map opcode (some byte) descriptor
  | member {descriptor : Descriptor} {byte : ModeByte} :
      table.lookup ⟨map, opcode, some byte.reg.val⟩ = some descriptor →
      Selects table map opcode (some byte) descriptor

/-- An operand does not take the form that the mode byte gives it. -/
inductive Misfit (specs : List OperandSpec) (byte : ModeByte) : OperandFault → Prop where
  | registerForm {type : OperandType} : byte.mode = .register → ⟨.rm .memoryOnly, type⟩ ∈ specs →
      Misfit specs byte .registerForm
  | memoryForm {type : OperandType} : byte.mode ≠ .register → ⟨.rm .registerOnly, type⟩ ∈ specs →
      Misfit specs byte .memoryForm

theorem Misfit.cons {spec : OperandSpec} {specs : List OperandSpec} {byte : ModeByte}
    {fault : OperandFault} (h : Misfit specs byte fault) : Misfit (spec :: specs) byte fault := by
  cases h with
  | registerForm hmode hspec => exact .registerForm hmode (List.mem_cons_of_mem _ hspec)
  | memoryForm hmode hspec => exact .memoryForm hmode (List.mem_cons_of_mem _ hspec)

theorem Misfit.head_or_tail {spec : OperandSpec} {specs : List OperandSpec} {byte : ModeByte}
    {fault : OperandFault} (h : Misfit (spec :: specs) byte fault) :
    Misfit [spec] byte fault ∨ Misfit specs byte fault := by
  cases h with
  | registerForm hmode hspec =>
    exact (List.mem_cons.mp hspec).imp (fun heq => .registerForm hmode (List.mem_singleton.mpr heq))
      (.registerForm hmode)
  | memoryForm hmode hspec =>
    exact (List.mem_cons.mp hspec).imp (fun heq => .memoryForm hmode (List.mem_singleton.mpr heq))
      (.memoryForm hmode)

theorem Misfit.exists_usesRm {specs : List OperandSpec} {byte : ModeByte} {fault : OperandFault}
    (h : Misfit specs byte fault) : ∃ spec ∈ specs, spec.mode.usesRm = true := by
  cases h with
  | registerForm hmode hspec => exact ⟨_, hspec, rfl⟩
  | memoryForm hmode hspec => exact ⟨_, hspec, rfl⟩

def Fits (specs : List OperandSpec) (modeByte : Option ModeByte) : Prop :=
  ∀ byte fault, modeByte = some byte → ¬ Misfit specs byte fault

theorem Fits.of_cons {spec : OperandSpec} {specs : List OperandSpec} {modeByte : Option ModeByte}
    (h : Fits (spec :: specs) modeByte) : Fits specs modeByte :=
  fun byte fault hbyte hmisfit => h byte fault hbyte hmisfit.cons

structure Sizes where
  operand : Width
  address : Width

def Config.sizes (config : Config) (run : List UInt8) : Sizes where
  operand := config.codeSize.width (decide (0x66 ∈ run))
  address := config.codeSize.width (decide (0x67 ∈ run))

def AddressingMode.isField : AddressingMode → Bool
  | immediate | relative | offset => true
  | _ => false

namespace Sizes

def typeLength (sizes : Sizes) : OperandType → Nat
  | .byte | .signExtendedByte => 1
  | .word => 2
  | .dword => 4
  | .variable => sizes.operand.bytes

def fieldLength (sizes : Sizes) (spec : OperandSpec) : Nat :=
  match spec.mode with
  | .immediate | .relative => sizes.typeLength spec.type
  | .offset => sizes.address.bytes
  | _ => 0

theorem fieldLength_of_not {spec : OperandSpec} (h : spec.mode.isField = false) (sizes : Sizes) :
    sizes.fieldLength spec = 0 := by
  unfold fieldLength
  cases hmode : spec.mode with
  | immediate | relative | offset =>
    rw [hmode] at h
    contradiction
  | rm | reg | opcodeRegister | fixedRegister | one => rfl

def fieldsLength (sizes : Sizes) (specs : List OperandSpec) : Nat :=
  specs.foldr (fun spec length => sizes.fieldLength spec + length) 0

end Sizes

namespace ModeByte

def hasScaleByte (byte : ModeByte) (address : Width) : Bool :=
  byte.mode ≠ .register && address = .dword && byte.rm.val = 4

def isBaseless (byte : ModeByte) (address : Width) (scale : Option ScaleByte) : Bool :=
  match address with
  | .word => byte.rm.val = 6
  | _ => byte.rm.val = 5 || scale.any (·.base.val = 5)

def displacementLength (byte : ModeByte) (address : Width) (scale : Option ScaleByte) : Nat :=
  match byte.mode with
  | .register => 0
  | .shortDisplacement => 1
  | .fullDisplacement => address.bytes
  | .withoutDisplacement => if byte.isBaseless address scale then address.bytes else 0

def addressLength (byte : ModeByte) (address : Width) (next : Option UInt8) : Nat :=
  if byte.hasScaleByte address then
    1 + byte.displacementLength address (next.map ScaleByte.ofByte)
  else byte.displacementLength address none

theorem displacementLength_zero (byte : ModeByte) (address : Width) :
    byte.displacementLength address (some (.ofByte 0)) = byte.displacementLength address none := by
  have hbase : (ScaleByte.ofByte 0).base.val ≠ 5 := by decide
  have hbaseless : byte.isBaseless address (some (.ofByte 0)) = byte.isBaseless address none := by
    cases address <;> simp [isBaseless, hbase]
  simp only [displacementLength, hbaseless]

theorem hasScaleByte_dword_iff (byte : ModeByte) :
    byte.hasScaleByte .dword = true ↔ byte.mode ≠ .register ∧ byte.rm.val = 4 := by
  simp [hasScaleByte]

theorem hasScaleByte_word (byte : ModeByte) : byte.hasScaleByte .word = false := by
  simp [hasScaleByte]

theorem hasScaleByte_register {byte : ModeByte} (h : byte.mode = .register) (address : Width) :
    byte.hasScaleByte address = false := by
  simp [hasScaleByte, h]

theorem addressLength_of_not {byte : ModeByte} {address : Width}
    (h : byte.hasScaleByte address = false) (next : Option UInt8) :
    byte.addressLength address next = byte.displacementLength address none := by
  rw [addressLength, h]
  rfl

theorem addressLength_register {byte : ModeByte} (h : byte.mode = .register) (address : Width)
    (next : Option UInt8) : byte.addressLength address next = 0 := by
  rw [addressLength_of_not (hasScaleByte_register h address), displacementLength, h]

end ModeByte

def rmByte (specs : List OperandSpec) (byte : Option ModeByte) : Option ModeByte :=
  if specs.any (·.mode.usesRm) then byte else none

def Sizes.tailLength (sizes : Sizes) (specs : List OperandSpec) (byte : Option ModeByte)
    (next : Option UInt8) : Nat :=
  (rmByte specs byte).elim 0 (·.addressLength sizes.address next) + sizes.fieldsLength specs

structure Encoding where
  run : List UInt8
  opcode : List UInt8
  modeByte : Option UInt8
  scaleByte : Option UInt8
  displacement : List UInt8
  fields : List (List UInt8)

namespace Encoding

def tail (encoding : Encoding) : List UInt8 :=
  encoding.scaleByte.toList ++ encoding.displacement ++ encoding.fields.flatten

def bytes (encoding : Encoding) : List UInt8 :=
  encoding.run ++ encoding.opcode ++ encoding.modeByte.toList ++ encoding.tail

structure Valid (encoding : Encoding) (table : Table) (config : Config) (map : OpcodeMap)
    (opcode : UInt8) (descriptor : Descriptor) : Prop where
  run : ∀ byte ∈ encoding.run, Prefix.isByte byte = true
  spells : Spells encoding.opcode map opcode
  selects : table.Selects map opcode (encoding.modeByte.map ModeByte.ofByte) descriptor
  fits : Fits descriptor.operands (encoding.modeByte.map ModeByte.ofByte)
  scaleByte : encoding.scaleByte.isSome =
    (rmByte descriptor.operands (encoding.modeByte.map ModeByte.ofByte)).any
      (·.hasScaleByte (config.sizes encoding.run).address)
  displacement : encoding.displacement.length =
    (rmByte descriptor.operands (encoding.modeByte.map ModeByte.ofByte)).elim 0
      (·.displacementLength (config.sizes encoding.run).address
        (encoding.scaleByte.map ScaleByte.ofByte))
  fields : encoding.fields.map List.length =
    (descriptor.operands.filter (·.mode.isField)).map (config.sizes encoding.run).fieldLength

end Encoding

/-- The bytes are those of one instruction, of any length. -/
def Encodes (table : Table) (config : Config) (code : List UInt8) : Prop :=
  ∃ encoding map opcode descriptor, Encoding.bytes encoding = code ∧
    encoding.Valid table config map opcode descriptor

end IA32
