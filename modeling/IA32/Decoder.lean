import IA32.Instruction
import IA32.Operand.Sequence
import IA32.Table.Builtin

set_option autoImplicit false

namespace IA32

/-- The bytes behind the escape byte are opcodes of the secondary map. -/
def OpcodeKey.read : Reader OpcodeKey := do
  let byte ← Reader.byte
  if byte = escapeByte then return .secondary (← Reader.byte)
  else return .primary byte

structure Selection where
  key : OpcodeKey
  descriptor : Descriptor
  modeByte : Option ModeByte
  deriving DecidableEq, Repr

structure Body where
  selection : Selection
  operands : List Operand
  deriving DecidableEq, Repr

namespace Table

/-- Looks up an opcode and reads the mode byte, if the opcode is that of a group or the instruction has an
operand in the mode byte. -/
def select (table : Table) (key : OpcodeKey) : Reader Selection :=
  match table.dispatch key.map key.opcode with
  | none => .fail (.unsupportedOpcode key)
  | some (.instruction descriptor) =>
    if descriptor.needsModeByte then do return ⟨key, descriptor, some (← ModeByte.read)⟩
    else pure ⟨key, descriptor, none⟩
  | some (.group group) => do
    let byte ← ModeByte.read
    let memberKey := key.withExtension byte.reg
    match group.member byte.reg with
    | none => .fail (.unsupportedOpcode memberKey)
    | some descriptor => return ⟨memberKey, descriptor, some byte⟩

def readBody (table : Table) (context : Context) : Reader Body := do
  let selection ← table.select (← OpcodeKey.read)
  let operands ← Operand.readAll context selection.key.opcode selection.modeByte
    selection.descriptor.operands
  return ⟨selection, operands⟩

end Table

structure Decoder where
  table : Table := .builtin
  config : Config := {}

namespace Decoder

/-- The instruction at `start`. The address of the image only tells addresses, `base` being that of its
first byte. -/
def decode (decoder : Decoder) (image : List UInt8) (start : Nat) (base : Option UInt64) :
    Except DecodeError Instruction := do
  if start > image.length then throw ⟨start, .outsideImage image.length⟩
  let (prefixes, next) := PrefixState.scan image start
  let cursor := (Cursor.ofOffset start).advanceTo next
  let (body, cursor) ←
    cursor.read image (decoder.table.readBody (decoder.config.context prefixes))
  let limit := decoder.config.lengthLimit
  if cursor.consumed > limit then throw ⟨start, .tooLong limit⟩
  Instruction.build body.selection.descriptor body.operands prefixes
    (decoder.config.operandWidth prefixes) image cursor base

/-- An instruction starts where it was looked for and takes at least one byte of the image. -/
theorem decode_offset {decoder : Decoder} {image : List UInt8} {start : Nat}
    {base : Option UInt64} {instruction : Instruction}
    (decoded : decoder.decode image start base = .ok instruction) :
    start ≤ image.length ∧ instruction.offset = start ∧ 0 < instruction.size
      ∧ instruction.nextOffset ≤ image.length := by
  unfold decode at decoded
  simp only [bind, Except.bind] at decoded
  split at decoded
  · contradiction
  next inside =>
    split at decoded
    · contradiction
    next found read =>
      split at decoded
      · contradiction
      · have begins := (Cursor.read_pos read).1
        have built := Instruction.build_offset decoded
        simp only [Cursor.advanceTo, Cursor.ofOffset] at begins
        unfold Instruction.nextOffset
        unfold Cursor.consumed at built
        omega

def lengthAt (decoder : Decoder) (image : List UInt8) (start : Nat) : Except DecodeError Nat :=
  (decoder.decode image start none).map Instruction.size

def text (decoder : Decoder) : String :=
  "X86Decoder::" ++ decoder.config.codeSize.name
    ++ " (" ++ toString decoder.table.size ++ " descriptors)"

end Decoder
end IA32
