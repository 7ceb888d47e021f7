import IA32.Width

set_option autoImplicit false

namespace IA32

inductive Register where
  | general (number : Nat) (width : Width)
  | instructionPointer (width : Width)
  deriving DecidableEq, Repr

namespace Register

def ofNumber (number : Nat) (width : Width) : Register := general (number % 8) width

def width : Register → Width
  | general _ width => width
  | instructionPointer width => width

def isInstructionPointer : Register → Bool
  | general .. => false
  | instructionPointer _ => true

/-- Names of the general registers of one width, in encoding order. -/
def names : Width → Vector String 8
  | .byte => #v["al", "cl", "dl", "bl", "ah", "ch", "dh", "bh"]
  | .word => #v["ax", "cx", "dx", "bx", "sp", "bp", "si", "di"]
  | .dword => #v["eax", "ecx", "edx", "ebx", "esp", "ebp", "esi", "edi"]

def name : Register → String
  | general number width => (names width)[number % 8]
  | instructionPointer .dword => "eip"
  | instructionPointer _ => "ip"

@[simp] theorem width_ofNumber (number : Nat) (width : Width) :
    (ofNumber number width).width = width := rfl

theorem name_ofNumber (number : Nat) (width : Width) :
    (ofNumber number width).name = (general number width).name := by
  simp [ofNumber, name]

end Register
end IA32
