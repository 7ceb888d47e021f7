set_option autoImplicit false

/-!
# Prefix bytes

A run of prefix bytes stands in front of an opcode. `PrefixState` is what a run says: each override flag
is set by its byte, and of several segment bytes, or of several repeat bytes, the last one counts.
-/
namespace IA32

inductive Segment where
  | es
  | cs
  | ss
  | ds
  | fs
  | gs
  deriving DecidableEq, Repr

def Segment.name : Segment → String
  | es => "es"
  | cs => "cs"
  | ss => "ss"
  | ds => "ds"
  | fs => "fs"
  | gs => "gs"

inductive Repeat where
  | rep
  | repne
  deriving DecidableEq, Repr

def Repeat.name : Repeat → String
  | rep => "rep"
  | repne => "repne"

inductive Prefix where
  | operandSize
  | addressSize
  | lock
  | repeats (kind : Repeat)
  | segment (register : Segment)
  deriving DecidableEq, Repr

namespace Prefix

def ofByte? (byte : UInt8) : Option Prefix :=
  match byte.toNat with
  | 0x26 => some (segment .es)
  | 0x2E => some (segment .cs)
  | 0x36 => some (segment .ss)
  | 0x3E => some (segment .ds)
  | 0x64 => some (segment .fs)
  | 0x65 => some (segment .gs)
  | 0x66 => some operandSize
  | 0x67 => some addressSize
  | 0xF0 => some lock
  | 0xF2 => some (repeats .repne)
  | 0xF3 => some (repeats .rep)
  | _ => none

def isByte (byte : UInt8) : Bool := (ofByte? byte).isSome

def segment? : Prefix → Option Segment
  | segment register => some register
  | _ => none

end Prefix

structure PrefixState where
  operandSize : Bool := false
  addressSize : Bool := false
  segment : Option Segment := none
  lock : Bool := false
  repeats : Option Repeat := none
  deriving DecidableEq, Repr

namespace PrefixState

def empty : PrefixState := {}

def isEmpty (state : PrefixState) : Bool := state = empty

def absorb (state : PrefixState) : Prefix → PrefixState
  | .operandSize => { state with operandSize := true }
  | .addressSize => { state with addressSize := true }
  | .lock => { state with lock := true }
  | .repeats kind => { state with repeats := some kind }
  | .segment register => { state with segment := some register }

def absorbRun (state : PrefixState) : List UInt8 → PrefixState × Nat
  | [] => (state, 0)
  | byte :: rest =>
    match Prefix.ofByte? byte with
    | none => (state, 0)
    | some found => match absorbRun (state.absorb found) rest with
      | (final, count) => (final, count + 1)

/-- State of the prefix run at `offset`, and the offset of the first byte behind the run. -/
def scan (image : List UInt8) (offset : Nat) : PrefixState × Nat :=
  match absorbRun empty (image.drop offset) with
  | (state, count) => (state, offset + count)

end PrefixState
end IA32
