import IA32.MemoryAddress

set_option autoImplicit false

namespace IA32

/-- A constant of the code, extended from the width in which it is encoded. -/
structure Immediate where
  value : Int
  width : Width
  isSigned : Bool
  deriving DecidableEq, Repr

namespace Immediate

/-- The low bits of `raw`, read as a number from zero up. -/
def unsigned (raw : Nat) (width : Width) : Immediate := ⟨(raw % width.modulus : Nat), width, false⟩

/-- The low bits of `raw`, read in two's complement. -/
def signed (raw : Nat) (width : Width) : Immediate := ⟨Int.bmod raw width.modulus, width, true⟩

def text (immediate : Immediate) : String := Hex.signed immediate.value

end Immediate

inductive Operand where
  | register (source : Register)
  | immediate (constant : Immediate)
  | memory (address : MemoryAddress) (width : Width)
  deriving DecidableEq, Repr

namespace Operand

def width : Operand → Width
  | register source => source.width
  | immediate constant => constant.width
  | memory _ width => width

def isRegister : Operand → Bool
  | register _ => true
  | _ => false

def isMemory : Operand → Bool
  | memory .. => true
  | _ => false

def text : Operand → String
  | register source => source.name
  | immediate constant => constant.text
  | memory address width => width.name ++ " ptr " ++ address.text

end Operand
end IA32
