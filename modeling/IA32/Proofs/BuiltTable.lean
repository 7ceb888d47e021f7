import IA32.Table

set_option autoImplicit false

namespace IA32

namespace Group

theorem member_empty (extension : Nat) : empty.member extension = none := by
  unfold member empty
  split
  · exact Vector.getElem_replicate _
  · rfl

theorem member_of_le {group : Group} {extension : Nat} (h : 8 ≤ extension) :
    group.member extension = none := by
  unfold member
  rw [dif_neg (by omega)]

theorem member_insert (group : Group) {extension : Nat} (h : extension < 8) (descriptor : Descriptor)
    (other : Nat) :
    (group.insert extension descriptor).member other =
      if other = extension then some descriptor else group.member other := by
  by_cases hother : other < 8
  · simp only [member, insert, dif_pos h, dif_pos hother, Vector.getElem_set, eq_comm]
  · have hne : other ≠ extension := by omega
    rw [if_neg hne, member_of_le (by omega), member_of_le (by omega)]

end Group

def Entry.lookup : Entry → Option Nat → Option Descriptor
  | .instruction descriptor, none => some descriptor
  | .group members, some extension => members.member extension
  | _, _ => none

namespace Table

def lookup (table : Table) (key : OpcodeKey) : Option Descriptor :=
  (table.dispatch key.map key.opcode).bind fun entry => entry.lookup key.extension

def attempt (table : Table) (call : OpcodeKey × Descriptor) : Table :=
  match table.register call.1 call.2 with
  | .ok next => next
  | .error _ => table

def ofCalls (calls : List (OpcodeKey × Descriptor)) : Table := calls.foldl attempt empty

variable {table next : Table} {key : OpcodeKey} {descriptor : Descriptor}

theorem lookup_empty (key : OpcodeKey) : empty.lookup key = none := by
  rw [lookup, dispatch_empty]
  rfl

theorem lookup_extend {slot : Option Entry} {entry : Entry}
    (h : extend slot key descriptor = .ok entry) (extension : Option Nat) :
    entry.lookup extension =
      if extension = key.extension then some descriptor
      else slot.bind fun held => held.lookup extension := by
  unfold extend at h
  cases hkey : key.extension with
  | none =>
    rw [hkey] at h
    cases slot with
    | none =>
      obtain ⟨⟩ := h
      cases extension <;> rfl
    | some held => contradiction
  | some place =>
    simp only [hkey] at h
    split at h
    · contradiction
    next hplace =>
      have hlt : place < 8 := by omega
      rcases slot with _ | _ | group
      · obtain ⟨⟩ := h
        cases extension with
        | none => rfl
        | some other => simp [Entry.lookup, Group.member_insert _ hlt, Group.member_empty]
      · contradiction
      · dsimp only at h
        split at h
        · contradiction
        · obtain ⟨⟩ := h
          cases extension with
          | none => rfl
          | some other => simp [Entry.lookup, Group.member_insert _ hlt]

theorem register_eq_ok_iff :
    table.register key descriptor = .ok next ↔
      descriptor.defect? = none ∧ key.isReserved = false ∧
        ∃ entry, extend (table.dispatch key.map key.opcode) key descriptor = .ok entry ∧
          table.put key.map key.opcode entry = next := by
  unfold register
  cases descriptor.defect? with
  | some defect => simp
  | none =>
    cases key.isReserved with
    | true => simp
    | false =>
      cases extend (table.dispatch key.map key.opcode) key descriptor with
      | error error => simp [Except.map]
      | ok entry => simp [Except.map]

/-- A registration adds its own key and changes no other. -/
theorem lookup_register (h : table.register key descriptor = .ok next) (other : OpcodeKey) :
    next.lookup other = if other = key then some descriptor else table.lookup other := by
  obtain ⟨-, -, entry, hextend, rfl⟩ := register_eq_ok_iff.mp h
  unfold lookup
  rw [dispatch_put]
  by_cases hslot : other.map = key.map ∧ other.opcode = key.opcode
  · rw [if_pos hslot, hslot.1, hslot.2, Option.bind_some, lookup_extend hextend]
    have hkey : other.extension = key.extension ↔ other = key := by
      cases other
      cases key
      simp_all
    simp only [hkey]
  · have hne : other ≠ key := by
      rintro rfl
      exact hslot ⟨rfl, rfl⟩
    rw [if_neg hslot, if_neg hne]

theorem ofCalls_induction {motive : Table → Prop} (initial : motive empty)
    (step : ∀ (table next : Table) (key : OpcodeKey) (descriptor : Descriptor),
      motive table → table.register key descriptor = .ok next → motive next)
    (calls : List (OpcodeKey × Descriptor)) : motive (ofCalls calls) := by
  -- The fold starts at the empty table, but its induction runs over every table.
  have hfold : ∀ table, motive table → motive (calls.foldl attempt table) := by
    induction calls with
    | nil => exact fun _ h => h
    | cons call calls ih =>
      intro table h
      apply ih
      unfold attempt
      split
      · next next hnext => exact step table next call.1 call.2 h hnext
      · exact h
  exact hfold empty initial

theorem dispatch_of_lookup_none {map : OpcodeMap} {opcode : UInt8}
    (h : table.lookup ⟨map, opcode, none⟩ = some descriptor) :
    table.dispatch map opcode = some (.instruction descriptor) := by
  obtain ⟨entry, hentry, hlookup⟩ := Option.bind_eq_some_iff.mp h
  cases entry with
  | instruction held =>
    obtain ⟨⟩ := hlookup
    exact hentry
  | group members => contradiction

theorem dispatch_of_lookup_some {map : OpcodeMap} {opcode : UInt8} {extension : Nat}
    (h : table.lookup ⟨map, opcode, some extension⟩ = some descriptor) :
    ∃ group, table.dispatch map opcode = some (.group group) ∧
      group.member extension = some descriptor := by
  obtain ⟨entry, hentry, hlookup⟩ := Option.bind_eq_some_iff.mp h
  cases entry with
  | instruction held => contradiction
  | group members => exact ⟨members, hentry, hlookup⟩

theorem lookup_of_dispatch_instruction {map : OpcodeMap} {opcode : UInt8}
    (h : table.dispatch map opcode = some (.instruction descriptor)) :
    table.lookup ⟨map, opcode, none⟩ = some descriptor := by
  rw [lookup, h]
  rfl

theorem lookup_of_dispatch_group {map : OpcodeMap} {opcode : UInt8} {group : Group}
    (h : table.dispatch map opcode = some (.group group)) (extension : Nat) :
    table.lookup ⟨map, opcode, some extension⟩ = group.member extension := by
  rw [lookup, h]
  rfl

/-- What registration makes sure of: descriptors pass their check and no group is empty. -/
structure Sound (table : Table) : Prop where
  defect : ∀ key descriptor, table.lookup key = some descriptor → descriptor.defect? = none
  group : ∀ map opcode group, table.dispatch map opcode = some (.group group) →
    ∃ extension descriptor, group.member extension = some descriptor

theorem sound_empty : Sound empty where
  defect key descriptor h := by
    rw [lookup_empty] at h
    contradiction
  group map opcode group h := by
    rw [dispatch_empty] at h
    contradiction

theorem sound_register (hsound : table.Sound) (h : table.register key descriptor = .ok next) :
    next.Sound where
  defect other held hheld := by
    rw [lookup_register h] at hheld
    split at hheld
    · obtain ⟨⟩ := hheld
      exact (register_eq_ok_iff.mp h).1
    · exact hsound.defect other held hheld
  group map opcode group hgroup := by
    obtain ⟨-, -, entry, hextend, rfl⟩ := register_eq_ok_iff.mp h
    rw [dispatch_put] at hgroup
    split at hgroup
    · obtain ⟨⟩ := hgroup
      have hadded := lookup_extend hextend key.extension
      rw [if_pos rfl] at hadded
      cases hkey : key.extension with
      | none =>
        rw [hkey] at hadded
        contradiction
      | some extension =>
        rw [hkey] at hadded
        exact ⟨extension, descriptor, hadded⟩
    · exact hsound.group map opcode group hgroup

theorem sound_ofCalls (calls : List (OpcodeKey × Descriptor)) : (ofCalls calls).Sound :=
  ofCalls_induction sound_empty (fun _ _ _ _ hsound h => sound_register hsound h) calls

end Table
end IA32
