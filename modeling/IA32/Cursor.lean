import IA32.Reader

set_option autoImplicit false

namespace IA32

structure Cursor where
  start : Nat
  pos : Nat
  deriving DecidableEq, Repr

namespace Cursor

def ofOffset (offset : Nat) : Cursor := ⟨offset, offset⟩

def consumed (cursor : Cursor) : Nat := cursor.pos - cursor.start

def advanceTo (cursor : Cursor) (pos : Nat) : Cursor := { cursor with pos := max pos cursor.pos }

def truncated (cursor : Cursor) (image : List UInt8) : DecodeError :=
  ⟨cursor.start, .truncated (image.length - cursor.start)⟩

def peek (cursor : Cursor) (image : List UInt8) : Except DecodeError UInt8 :=
  match image[cursor.pos]? with
  | some byte => .ok byte
  | none => .error (cursor.truncated image)

def readByte (cursor : Cursor) (image : List UInt8) : Except DecodeError (UInt8 × Cursor) :=
  (cursor.peek image).map fun byte => (byte, { cursor with pos := cursor.pos + 1 })

def error (cursor : Cursor) (image : List UInt8) : Halt → DecodeError
  | .endOfCode => cursor.truncated image
  | .fault reason => ⟨cursor.start, reason.cause⟩

def read {α : Type} (cursor : Cursor) (image : List UInt8) (reader : Reader α) :
    Except DecodeError (α × Cursor) :=
  let code := image.drop cursor.pos
  match reader.run code with
  | .ok (value, rest) =>
    .ok (value, { cursor with pos := cursor.pos + (code.length - rest.length) })
  | .error halt => .error (cursor.error image halt)

/-- Reads a number of so many bytes, lowest byte first. -/
def readNumber (cursor : Cursor) (image : List UInt8) (count : Nat) :
    Except DecodeError (Nat × Cursor) :=
  cursor.read image (Reader.number count)

/-- A read keeps the start, does not move backwards and stays inside the image. -/
theorem read_pos {α : Type} {cursor next : Cursor} {image : List UInt8} {reader : Reader α}
    {value : α} (read : cursor.read image reader = .ok (value, next)) :
    next.start = cursor.start ∧ cursor.pos ≤ next.pos
      ∧ (cursor.pos ≤ image.length → next.pos ≤ image.length) := by
  unfold Cursor.read at read
  dsimp only at read
  split at read
  · obtain ⟨⟩ := read
    refine ⟨rfl, Nat.le_add_right _ _, fun inside => ?_⟩
    simp only [List.length_drop]
    omega
  · contradiction

end Cursor
end IA32
