import IA32.Config
import IA32.Cursor
import IA32.Operand

set_option autoImplicit false

namespace IA32

inductive Destination where
  /-- So far from the next instruction; the target is known where the address of the code is. -/
  | relative (displacement : Int) (target : Option UInt64)
  | indirect (operand : Operand)
  deriving DecidableEq, Repr

inductive Shape where
  | noOperand
  | operation
  | transfer (flow : Flow) (destination : Option Destination)
  deriving DecidableEq, Repr

structure Instruction where
  mnemonic : String
  shape : Shape
  operands : List Operand
  /-- The bytes of the instruction, prefixes included. -/
  encoding : List UInt8
  offset : Nat
  address : Option UInt64
  prefixes : PrefixState
  deriving DecidableEq, Repr

namespace Instruction

def size (instruction : Instruction) : Nat := instruction.encoding.length

def nextOffset (instruction : Instruction) : Nat := instruction.offset + instruction.size

def nextAddress (instruction : Instruction) : Option UInt64 :=
  instruction.address.map (· + .ofNat instruction.size)

def isControlTransfer (instruction : Instruction) : Bool :=
  match instruction.shape with
  | .transfer .. => true
  | _ => false

def isCall (instruction : Instruction) : Bool :=
  match instruction.shape with
  | .transfer .call _ => true
  | _ => false

def branchTarget (instruction : Instruction) : Option UInt64 :=
  match instruction.shape with
  | .transfer _ (some (.relative _ target)) => target
  | _ => none

def returnAddress (instruction : Instruction) : Option UInt64 :=
  if instruction.isCall then instruction.nextAddress else none

def prefixText (prefixes : PrefixState) : String :=
  (if prefixes.lock then "lock " else "")
    ++ match prefixes.repeats with
      | none => ""
      | some kind => kind.name ++ " "

/-- A known target stands in place of the distance. -/
def operandTexts (instruction : Instruction) : List String :=
  match instruction.branchTarget, instruction.operands with
  | some target, _ :: rest => Hex.unsigned target.toNat :: rest.map Operand.text
  | _, operands => operands.map Operand.text

def operandsText (instruction : Instruction) : String :=
  match instruction.operandTexts with
  | [] => ""
  | texts => " " ++ ", ".intercalate texts

def text (instruction : Instruction) : String :=
  prefixText instruction.prefixes ++ instruction.mnemonic ++ instruction.operandsText

/-- An instruction pointer of 16 bits wraps at 64 KiB. -/
def wrapTarget (operandWidth : Width) (target : UInt64) : UInt64 :=
  if operandWidth = .word then target % 0x10000 else target

def destination (operandWidth : Width) (next : Option UInt64) : Operand → Destination
  | .immediate constant =>
    .relative constant.value
      (next.map fun address => wrapTarget operandWidth (address + .ofInt constant.value))
  | operand => .indirect operand

def shapeOf (kind : InstructionClass) (operands : List Operand) (operandWidth : Width)
    (next : Option UInt64) : Shape :=
  match kind with
  | .general => if operands.isEmpty then .noOperand else .operation
  | .transfer .ret => .transfer .ret none
  | .transfer flow => .transfer flow (operands.head?.map (destination operandWidth next))

/-- The instruction between the start and the position of a cursor. Refuses a span of more than 15 bytes,
an empty one and one that leaves the image. -/
def build (descriptor : Descriptor) (operands : List Operand) (prefixes : PrefixState)
    (operandWidth : Width) (image : List UInt8) (cursor : Cursor) (base : Option UInt64) :
    Except DecodeError Instruction :=
  if cursor.consumed > maxInstructionLength then
    .error ⟨cursor.start, .tooLong maxInstructionLength⟩
  else if cursor.consumed = 0 ∨ image.length < cursor.pos then .error (cursor.truncated image)
  else
    let address := base.map (· + .ofNat cursor.start)
    let next := address.map (· + .ofNat cursor.consumed)
    .ok {
      mnemonic := descriptor.mnemonicFor operandWidth
      shape := shapeOf descriptor.kind operands operandWidth next
      operands
      encoding := (image.drop cursor.start).take cursor.consumed
      offset := cursor.start
      address
      prefixes }

theorem build_offset {descriptor : Descriptor} {operands : List Operand} {prefixes : PrefixState}
    {operandWidth : Width} {image : List UInt8} {cursor : Cursor} {base : Option UInt64}
    {instruction : Instruction}
    (built : build descriptor operands prefixes operandWidth image cursor base = .ok instruction) :
    instruction.offset = cursor.start ∧ instruction.size = cursor.consumed
      ∧ 0 < cursor.consumed ∧ cursor.pos ≤ image.length := by
  unfold build at built
  split at built
  · contradiction
  split at built
  · contradiction
  next short span =>
    obtain ⟨⟩ := built
    have inside : cursor.pos ≤ image.length := by omega
    refine ⟨rfl, ?_, by omega, inside⟩
    simp only [size, List.length_take, List.length_drop]
    unfold Cursor.consumed at span ⊢
    omega

end Instruction
end IA32
