import IA32.Opcode

set_option autoImplicit false

namespace IA32

inductive OperandFault where
  | registerForm
  | memoryForm
  | emptyAddress
  | emptyOffset
  | notInCode
  | missingModeByte
  | secondRmOperand
  deriving DecidableEq, Repr

def OperandFault.text : OperandFault → String
  | registerForm => "register form where a memory operand is required"
  | memoryForm => "memory form where a register operand is required"
  | emptyAddress => "memory form names no addressing component"
  | emptyOffset => "direct offset names no addressing component"
  | notInCode => "operand is not an immediate, relative or offset form"
  | missingModeByte => "operand requires a mode byte"
  | secondRmOperand => "descriptor declares more than one r/m operand"

inductive DecodeCause where
  | unsupportedOpcode (key : OpcodeKey)
  /-- The code ends inside the instruction, of which so many bytes are there. -/
  | truncated (available : Nat)
  | invalidOperand (fault : OperandFault)
  | tooLong (limit : Nat)
  /-- The offset lies beyond the end of an image of this length. -/
  | outsideImage (length : Nat)
  deriving DecidableEq, Repr

structure DecodeError where
  offset : Nat
  cause : DecodeCause
  deriving DecidableEq, Repr

namespace DecodeError

def isTruncation (error : DecodeError) : Bool :=
  match error.cause with
  | .truncated _ => true
  | _ => false

def message (error : DecodeError) : String :=
  match error.cause with
  | .unsupportedOpcode key =>
    "Unsupported opcode " ++ key.text ++ " at offset " ++ Hex.unsigned error.offset
  | .truncated available =>
    "Truncated instruction at offset " ++ Hex.unsigned error.offset
      ++ ": only " ++ toString available ++ " bytes available"
  | .invalidOperand fault =>
    "Invalid operand encoding at offset " ++ Hex.unsigned error.offset ++ ": " ++ fault.text
  | .tooLong limit =>
    "Instruction at offset " ++ Hex.unsigned error.offset
      ++ " exceeds " ++ toString limit ++ " bytes"
  | .outsideImage length =>
    "Invalid offset: " ++ toString error.offset
      ++ " is outside the image bounds (" ++ toString length ++ " bytes)"

end DecodeError
end IA32
