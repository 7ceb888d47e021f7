import IA32.Hex
import IA32.Prefix

set_option autoImplicit false

namespace IA32

inductive OpcodeMap where
  | primary
  | secondary
  deriving DecidableEq, Repr

def escapeByte : UInt8 := 0x0F

/-- What one instruction is registered under. -/
structure OpcodeKey where
  map : OpcodeMap
  opcode : UInt8
  extension : Option Nat := none
  deriving DecidableEq, Repr

namespace OpcodeKey

def primary (opcode : UInt8) : OpcodeKey := ⟨.primary, opcode, none⟩

def secondary (opcode : UInt8) : OpcodeKey := ⟨.secondary, opcode, none⟩

def withExtension (key : OpcodeKey) (extension : Nat) : OpcodeKey :=
  { key with extension := some extension }

/-- A primary opcode that is read as a prefix or as the escape byte, never as an opcode. -/
def isReserved (key : OpcodeKey) : Bool :=
  key.map = .primary && (key.opcode = escapeByte || Prefix.isByte key.opcode)

def mapText : OpcodeMap → String
  | .primary => ""
  | .secondary => Hex.byte escapeByte ++ " "

def extensionText : Option Nat → String
  | none => ""
  | some extension => " /" ++ toString extension

def text (key : OpcodeKey) : String :=
  mapText key.map ++ Hex.byte key.opcode ++ extensionText key.extension

end OpcodeKey
end IA32
