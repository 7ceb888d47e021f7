set_option autoImplicit false

namespace IA32

inductive Width where
  | byte
  | word
  | dword
  deriving DecidableEq, Repr

namespace Width

def bytes : Width → Nat
  | byte => 1
  | word => 2
  | dword => 4

def bits (width : Width) : Nat := 8 * width.bytes

def modulus (width : Width) : Nat := Nat.pow 2 width.bits

def name : Width → String
  | byte => "byte"
  | word => "word"
  | dword => "dword"

theorem bytes_pos (width : Width) : 0 < width.bytes := by cases width <;> decide

theorem modulus_pos (width : Width) : 0 < width.modulus := Nat.two_pow_pos _

end Width
end IA32
