import IA32.Descriptor
import IA32.Prefix

set_option autoImplicit false

namespace IA32

/-- Operand and address size of code without overrides. -/
inductive CodeSize where
  | bits16
  | bits32
  deriving DecidableEq, Repr

namespace CodeSize

def name : CodeSize → String
  | bits16 => "Bits16"
  | bits32 => "Bits32"

def width (size : CodeSize) (isOverridden : Bool) : Width :=
  match size, isOverridden with
  | bits16, false => .word
  | bits16, true => .dword
  | bits32, false => .dword
  | bits32, true => .word

end CodeSize

/-- Meaning of 32-bit addressing that names no register but a displacement. -/
inductive DisplacementOnly where
  | absolute
  | instructionPointerRelative
  deriving DecidableEq, Repr

def maxInstructionLength : Nat := 15

structure Config where
  codeSize : CodeSize := .bits32
  displacementOnly : DisplacementOnly := .absolute
  lengthBound : Nat := maxInstructionLength
  deriving DecidableEq, Repr

/-- What the operands of one instruction depend on besides their bytes. -/
structure Context where
  operandWidth : Width
  addressWidth : Width
  segment : Option Segment
  displacementOnly : DisplacementOnly
  deriving DecidableEq, Repr

namespace Config

def operandWidth (config : Config) (prefixes : PrefixState) : Width :=
  config.codeSize.width prefixes.operandSize

def addressWidth (config : Config) (prefixes : PrefixState) : Width :=
  config.codeSize.width prefixes.addressSize

/-- The longest instruction accepted: the bound, but at least 1 and at most 15. -/
def lengthLimit (config : Config) : Nat := max 1 (min config.lengthBound maxInstructionLength)

def context (config : Config) (prefixes : PrefixState) : Context where
  operandWidth := config.operandWidth prefixes
  addressWidth := config.addressWidth prefixes
  segment := prefixes.segment
  displacementOnly := config.displacementOnly

theorem lengthLimit_pos (config : Config) : 0 < config.lengthLimit := by
  unfold lengthLimit
  omega

theorem lengthLimit_le (config : Config) : config.lengthLimit ≤ maxInstructionLength := by
  unfold lengthLimit maxInstructionLength
  omega

end Config

namespace Context

def width (context : Context) : OperandType → Width
  | .byte => .byte
  | .word => .word
  | .dword => .dword
  | .variable => context.operandWidth
  | .signExtendedByte => context.operandWidth

def encodedWidth (context : Context) : OperandType → Width
  | .signExtendedByte => .byte
  | type => context.width type

end Context
end IA32
