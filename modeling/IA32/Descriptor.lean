import IA32.Flow
import IA32.Width

set_option autoImplicit false

namespace IA32

inductive OperandForm where
  | any
  | registerOnly
  | memoryOnly
  deriving DecidableEq, Repr

/-- Where the bits of an operand come from. -/
inductive AddressingMode where
  /-- The r/m field of the mode byte, with scale byte and displacement. -/
  | rm (form : OperandForm)
  | reg
  | immediate
  /-- A signed distance from the next instruction. -/
  | relative
  /-- The low three bits of the opcode. -/
  | opcodeRegister
  | fixedRegister (number : Nat)
  /-- The constant one, which takes no bytes. -/
  | one
  /-- An address in the code, as wide as the address size. -/
  | offset
  deriving DecidableEq, Repr

namespace AddressingMode

def usesRm : AddressingMode → Bool
  | rm _ => true
  | _ => false

def usesModeByte : AddressingMode → Bool
  | rm _ => true
  | reg => true
  | _ => false

end AddressingMode

inductive OperandType where
  | byte
  | word
  | dword
  /-- As wide as the operand size. -/
  | variable
  /-- A byte in the code, extended by its sign to the operand size. -/
  | signExtendedByte
  deriving DecidableEq, Repr

structure OperandSpec where
  mode : AddressingMode
  type : OperandType
  deriving DecidableEq, Repr

inductive InstructionClass where
  | general
  | transfer (flow : Flow)
  deriving DecidableEq, Repr

structure Descriptor where
  mnemonic : String
  /-- Name under a 16-bit operand size, where it differs. -/
  wordMnemonic : Option String := none
  kind : InstructionClass := .general
  operands : List OperandSpec := []
  deriving DecidableEq, Repr

inductive Defect where
  | emptyMnemonic
  | tooManyOperands
  | severalRmOperands
  | signExtensionWithoutImmediate
  | registerNumber
  | transferOperandCount
  | transferOperandMode
  | returnOperands
  | relativeWithoutTransfer
  deriving DecidableEq, Repr

def Defect.text : Defect → String
  | emptyMnemonic => "empty mnemonic"
  | tooManyOperands => "too many operands"
  | severalRmOperands => "more than one r/m operand"
  | signExtensionWithoutImmediate => "sign-extended byte type requires an immediate operand"
  | registerNumber => "fixed register number out of range"
  | transferOperandCount => "control transfer takes exactly one operand"
  | transferOperandMode => "control transfer operand must be relative or r/m"
  | returnOperands => "return takes no operand or one immediate"
  | relativeWithoutTransfer => "relative operand on a non-branch instruction"

def OperandSpec.defect? (spec : OperandSpec) : Option Defect :=
  match spec.mode, spec.type with
  | .immediate, _ => none
  | _, .signExtendedByte => some .signExtensionWithoutImmediate
  | .fixedRegister number, _ => if number > 7 then some .registerNumber else none
  | _, _ => none

def InstructionClass.defect? (kind : InstructionClass) (operands : List OperandSpec) :
    Option Defect :=
  match kind with
  | .general =>
    if operands.any (·.mode = .relative) then some .relativeWithoutTransfer else none
  | .transfer .ret =>
    match operands with
    | [] => none
    | [spec] => if spec.mode = .immediate then none else some .returnOperands
    | _ => some .returnOperands
  | .transfer _ =>
    match operands with
    | [target] =>
      match target.mode with
      | .relative | .rm .any | .rm .memoryOnly => none
      | _ => some .transferOperandMode
    | _ => some .transferOperandCount

namespace Descriptor

def maxOperands : Nat := 3

def mnemonicFor (descriptor : Descriptor) : Width → String
  | .word => descriptor.wordMnemonic.getD descriptor.mnemonic
  | _ => descriptor.mnemonic

def needsModeByte (descriptor : Descriptor) : Bool :=
  descriptor.operands.any (·.mode.usesModeByte)

/-- The first defect: of the names, of the number of operands, of single operands in order, and last of the
operands as those of the class. -/
def defect? (descriptor : Descriptor) : Option Defect :=
  if descriptor.mnemonic = "" ∨ descriptor.wordMnemonic = some "" then some .emptyMnemonic
  else if descriptor.operands.length > maxOperands then some .tooManyOperands
  else if descriptor.operands.countP (·.mode.usesRm) > 1 then some .severalRmOperands
  else
    match descriptor.operands.findSome? OperandSpec.defect? with
    | some defect => some defect
    | none => descriptor.kind.defect? descriptor.operands

end Descriptor
end IA32
