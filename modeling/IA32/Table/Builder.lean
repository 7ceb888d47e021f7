import IA32.Table

set_option autoImplicit false

/-!
# Tables under construction

A registration that works on the table in place: a free slot becomes a group before the place in the group
is looked at, and what was changed stays changed if a later check fails. `Table.register` is what a caller
sees of it.
-/
namespace IA32

/-- A step that works on a table in place. A step that fails does not take its changes back. -/
abbrev Builder := EStateM TableError Table

namespace Builder

def getOrInsert (map : OpcodeMap) (opcode : UInt8) (entry : Entry) : Builder Entry := do
  match (← get).dispatch map opcode with
  | some held => return held
  | none =>
    modify (·.put map opcode entry)
    return entry

def fill (key : OpcodeKey) (descriptor : Descriptor) : Builder Unit := do
  match key.extension with
  | none =>
    if ((← get).dispatch key.map key.opcode).isSome then throw (.duplicate key)
    modify (·.put key.map key.opcode (.instruction descriptor))
  | some extension =>
    if extension > 7 then throw (.invalidExtension key)
    match ← getOrInsert key.map key.opcode (.group .empty) with
    | .instruction _ => throw (.duplicate key)
    | .group group =>
      if (group.member extension).isSome then throw (.duplicate key)
      modify (·.put key.map key.opcode (.group (group.insert extension descriptor)))

def register (key : OpcodeKey) (descriptor : Descriptor) : Builder Unit := do
  if let some defect := descriptor.defect? then
    throw (.malformed key descriptor.mnemonic defect)
  if key.isReserved then throw (.reserved key)
  fill key descriptor

end Builder

/-- A table under construction, with the registrations that it has accepted. -/
structure Registry where
  table : Table := .empty
  accepted : List (OpcodeKey × Descriptor) := []

namespace Registry

def call (registry : Registry) (entry : OpcodeKey × Descriptor) : Registry :=
  match (Builder.register entry.1 entry.2).run registry.table with
  | .ok () next => ⟨next, registry.accepted ++ [entry]⟩
  | .error _ left => { registry with table := left }

/-- What calls come to that are made in order, whatever each of them returns. -/
def ofCalls (calls : List (OpcodeKey × Descriptor)) : Registry := calls.foldl call {}

end Registry
end IA32
