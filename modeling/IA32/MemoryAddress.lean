import IA32.Hex
import IA32.Prefix
import IA32.Register

set_option autoImplicit false

namespace IA32

/-- Displacement of a memory operand, in the size in which it is encoded. -/
inductive Displacement where
  | none
  | disp8 (value : Int8)
  | disp16 (value : Int16)
  | disp32 (value : Int32)
  deriving DecidableEq, Repr

namespace Displacement

def value : Displacement → Int
  | none => 0
  | disp8 value => value.toInt
  | disp16 value => value.toInt
  | disp32 value => value.toInt

def isPresent : Displacement → Bool
  | none => false
  | _ => true

end Displacement

structure MemoryAddress where
  base : Option Register
  index : Option Register
  scale : Nat
  displacement : Displacement
  segment : Option Segment
  addressWidth : Width
  deriving DecidableEq, Repr

namespace MemoryAddress

def isScale (scale : Nat) : Bool := scale = 1 || scale = 2 || scale = 4 || scale = 8

/-- Refuses an address without any component, and a scale other than 1, 2, 4 or 8. Without an index the
scale is 1. -/
def make? (base index : Option Register) (scale : Nat) (displacement : Displacement)
    (segment : Option Segment) (addressWidth : Width) : Option MemoryAddress :=
  if base.isNone && index.isNone && !displacement.isPresent then none
  else if isScale scale then
    some { base, index, displacement, segment, addressWidth
           scale := if index.isSome then scale else 1 }
  else none

def isInstructionPointerRelative (address : MemoryAddress) : Bool :=
  address.base.any Register.isInstructionPointer

def indexText (index : Register) (scale : Nat) : String :=
  if scale = 1 then index.name else index.name ++ "*" ++ toString scale

def registersText (address : MemoryAddress) : String :=
  match address.base, address.index with
  | none, none => ""
  | some base, none => base.name
  | none, some index => indexText index address.scale
  | some base, some index => base.name ++ "+" ++ indexText index address.scale

/-- A displacement that stands alone is written as an unsigned number of the address width, one behind a
register with its sign. -/
def displacementText (address : MemoryAddress) : String :=
  let value := address.displacement.value
  if !address.displacement.isPresent then ""
  else if address.base.isNone && address.index.isNone then
    Hex.unsigned (value % address.addressWidth.modulus).toNat
  else if value < 0 then Hex.signed value
  else "+" ++ Hex.signed value

def segmentText : Option Segment → String
  | none => ""
  | some segment => segment.name ++ ":"

def text (address : MemoryAddress) : String :=
  segmentText address.segment ++ "[" ++ address.registersText ++ address.displacementText ++ "]"

end MemoryAddress
end IA32
