import IA32.Decoder

set_option autoImplicit false

namespace IA32

/-- Everything that a sweep decoded, the error that stopped it if one did, and where it stopped. -/
structure Sweep where
  instructions : List Instruction
  error : Option DecodeError
  endOffset : Nat
  deriving DecidableEq, Repr

namespace Sweep

def isComplete (sweep : Sweep) : Bool := sweep.error.isNone

def bytesDecoded (sweep : Sweep) : Nat :=
  sweep.instructions.foldr (fun instruction size => instruction.size + size) 0

def after (first : Instruction) (sweep : Sweep) : Sweep :=
  { sweep with instructions := first :: sweep.instructions }

end Sweep

structure Region where
  image : List UInt8
  start : Nat
  base : Option UInt64

/-- A sweep that is taken one instruction at a time. -/
structure Walk where
  offset : Nat
  hasStopped : Bool := false
  deriving DecidableEq, Repr

namespace Decoder

def sweep (decoder : Decoder) (image : List UInt8) (start : Nat) (base : Option UInt64) : Sweep :=
  if start = image.length then ⟨[], none, start⟩
  else
    match _ : decoder.decode image start base with
    | .ok instruction => (decoder.sweep image instruction.nextOffset base).after instruction
    | .error error => ⟨[], some error, start⟩
termination_by image.length - start
decreasing_by
  have progress := decode_offset ‹decoder.decode image start base = .ok instruction›
  unfold Instruction.nextOffset
  omega

/-- The next instruction or the error that ends the walk; nothing behind the end or an error. -/
def step (decoder : Decoder) (image : List UInt8) (base : Option UInt64) (walk : Walk) :
    Option (Except DecodeError Instruction) × Walk :=
  if walk.hasStopped ∨ walk.offset = image.length then (none, { walk with hasStopped := true })
  else
    match decoder.decode image walk.offset base with
    | .ok instruction => (some (.ok instruction), { walk with offset := instruction.nextOffset })
    | .error error => (some (.error error), { walk with hasStopped := true })

def steps (decoder : Decoder) (image : List UInt8) (base : Option UInt64) :
    Nat → Walk → List (Option (Except DecodeError Instruction) × Walk)
  | 0, _ => []
  | count + 1, walk =>
    let result := decoder.step image base walk
    result :: decoder.steps image base count result.2

/-- Offsets of all instructions from `start` to the end of the image. -/
def boundaries (decoder : Decoder) (image : List UInt8) (start : Nat) :
    Except DecodeError (List Nat) :=
  if start = image.length then .ok []
  else
    match _ : decoder.decode image start none with
    | .ok instruction =>
      (decoder.boundaries image instruction.nextOffset).map (instruction.offset :: ·)
    | .error error => .error error
termination_by image.length - start
decreasing_by
  have progress := decode_offset ‹decoder.decode image start none = .ok instruction›
  unfold Instruction.nextOffset
  omega

def sweepRegions (decoder : Decoder) (regions : List Region) : List Sweep :=
  regions.map fun region => decoder.sweep region.image region.start region.base

end Decoder
end IA32
