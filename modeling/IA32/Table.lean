import IA32.Descriptor
import IA32.Opcode

set_option autoImplicit false

/-!
# Opcode tables

A table has a slot for every opcode of both maps. A slot holds one instruction or a group of up to eight,
and `register` fills slots one instruction at a time, refusing whatever could not be dispatched or would
replace an earlier registration.
-/
namespace IA32

/-- Instructions that share an opcode, by the reg field of the mode byte. -/
structure Group where
  members : Vector (Option Descriptor) 8
  deriving DecidableEq, Repr

namespace Group

def empty : Group := ⟨Vector.replicate 8 none⟩

def member (group : Group) (extension : Nat) : Option Descriptor :=
  if h : extension < 8 then group.members[extension] else none

/-- Changes nothing for an extension that no mode byte holds. -/
def insert (group : Group) (extension : Nat) (descriptor : Descriptor) : Group :=
  if h : extension < 8 then ⟨group.members.set extension (some descriptor) h⟩ else group

def size (group : Group) : Nat := group.members.toList.countP Option.isSome

end Group

inductive Entry where
  | instruction (descriptor : Descriptor)
  | group (members : Group)
  deriving DecidableEq, Repr

def Entry.size : Entry → Nat
  | instruction _ => 1
  | group members => members.size

abbrev Slots := Vector (Option Entry) 256

structure Table where
  primary : Slots
  secondary : Slots
  deriving DecidableEq, Repr

inductive TableError where
  | duplicate (key : OpcodeKey)
  | malformed (key : OpcodeKey) (mnemonic : String) (defect : Defect)
  | invalidExtension (key : OpcodeKey)
  | reserved (key : OpcodeKey)
  deriving DecidableEq, Repr

def TableError.message : TableError → String
  | duplicate key => "Duplicate registration for opcode " ++ key.text
  | malformed key mnemonic defect =>
    "Malformed descriptor '" ++ mnemonic ++ "' for opcode " ++ key.text ++ ": " ++ defect.text
  | invalidExtension key => "Invalid group extension for opcode " ++ key.text
  | reserved key =>
    "Opcode " ++ key.text ++ " is a prefix or escape byte and can never be dispatched"

namespace Table

def empty : Table := ⟨Vector.replicate 256 none, Vector.replicate 256 none⟩

def slots (table : Table) : OpcodeMap → Slots
  | .primary => table.primary
  | .secondary => table.secondary

def dispatch (table : Table) (map : OpcodeMap) (opcode : UInt8) : Option Entry :=
  have inside := opcode.toNat_lt
  (table.slots map)[opcode.toNat]

def put (table : Table) (map : OpcodeMap) (opcode : UInt8) (entry : Entry) : Table :=
  match map with
  | .primary => { table with primary := table.primary.set opcode.toNat (some entry) opcode.toNat_lt }
  | .secondary =>
    { table with secondary := table.secondary.set opcode.toNat (some entry) opcode.toNat_lt }

theorem dispatch_empty (map : OpcodeMap) (opcode : UInt8) : empty.dispatch map opcode = none := by
  cases map <;> simp [dispatch, empty, slots]

theorem dispatch_put (table : Table) (map other : OpcodeMap) (opcode byte : UInt8) (entry : Entry) :
    (table.put map opcode entry).dispatch other byte =
      if other = map ∧ byte = opcode then some entry else table.dispatch other byte := by
  cases map <;> cases other <;>
    simp [dispatch, put, slots, Vector.getElem_set, UInt8.toNat_inj, eq_comm]

def slotsSize (slots : Slots) : Nat :=
  slots.toList.foldr (fun slot size => slot.elim 0 Entry.size + size) 0

/-- Number of instructions, members of groups included. -/
def size (table : Table) : Nat := slotsSize table.primary + slotsSize table.secondary

def isEmpty (table : Table) : Bool := table.size = 0

def extend (slot : Option Entry) (key : OpcodeKey) (descriptor : Descriptor) :
    Except TableError Entry :=
  match key.extension with
  | none =>
    match slot with
    | none => .ok (.instruction descriptor)
    | some _ => .error (.duplicate key)
  | some extension =>
    if extension > 7 then .error (.invalidExtension key)
    else
      match slot with
      | none => .ok (.group (Group.empty.insert extension descriptor))
      | some (.instruction _) => .error (.duplicate key)
      | some (.group group) =>
        match group.member extension with
        | some _ => .error (.duplicate key)
        | none => .ok (.group (group.insert extension descriptor))

/-- Adds an instruction. A key with an extension takes one place of a group, a key without one takes the
whole opcode. -/
def register (table : Table) (key : OpcodeKey) (descriptor : Descriptor) :
    Except TableError Table :=
  match descriptor.defect? with
  | some defect => .error (.malformed key descriptor.mnemonic defect)
  | none =>
    if key.isReserved then .error (.reserved key)
    else
      (extend (table.dispatch key.map key.opcode) key descriptor).map
        (table.put key.map key.opcode)

/-- Adds instructions in order, up to the first that is refused. -/
def registerAll (table : Table) (entries : List (OpcodeKey × Descriptor)) :
    Except TableError Table :=
  entries.foldlM (fun table entry => table.register entry.1 entry.2) table

end Table
end IA32
