import IA32.Reader

set_option autoImplicit false

namespace IA32

/-- What the two high bits of a mode byte say about the r/m field. -/
inductive Mode where
  | withoutDisplacement
  | shortDisplacement
  | fullDisplacement
  | register
  deriving DecidableEq, Repr

namespace Mode

def ofNumber (number : Nat) : Mode :=
  match number % 4 with
  | 0 => withoutDisplacement
  | 1 => shortDisplacement
  | 2 => fullDisplacement
  | _ => register

def number : Mode → Nat
  | withoutDisplacement => 0
  | shortDisplacement => 1
  | fullDisplacement => 2
  | register => 3

theorem ofNumber_number (mode : Mode) : ofNumber mode.number = mode := by cases mode <;> rfl

end Mode

structure ModeByte where
  mode : Mode
  reg : Fin 8
  rm : Fin 8
  deriving DecidableEq, Repr

namespace ModeByte

def ofByte (byte : UInt8) : ModeByte where
  mode := .ofNumber (byte.toNat / 64)
  reg := .ofNat 8 (byte.toNat / 8)
  rm := .ofNat 8 byte.toNat

def isRegister (byte : ModeByte) : Bool := byte.mode = .register

def read : Reader ModeByte := do return ofByte (← Reader.byte)

end ModeByte

structure ScaleByte where
  /-- Binary logarithm of the scale. -/
  shift : Fin 4
  index : Fin 8
  base : Fin 8
  deriving DecidableEq, Repr

namespace ScaleByte

def ofByte (byte : UInt8) : ScaleByte where
  shift := .ofNat 4 (byte.toNat / 64)
  index := .ofNat 8 (byte.toNat / 8)
  base := .ofNat 8 byte.toNat

def scale (byte : ScaleByte) : Nat := Nat.pow 2 byte.shift.val

def read : Reader ScaleByte := do return ofByte (← Reader.byte)

end ScaleByte
end IA32
