import IA32.Proofs.Growth
import IA32.Table.Builder

set_option autoImplicit false

/-!
# Registries

A registration in place does what `Table.register` says, and leaves the table alone where that refuses. By
one call after the other the table stays the map of the registrations that were accepted: a slot says which
ones there are, and the size is how many.
-/
namespace IA32

theorem foldr_set {α : Type} (measure : α → Nat) (items : List α) (item : α) {place : Nat}
    (h : place < items.length) :
    (items.set place item).foldr (fun held total => measure held + total) 0 + measure items[place] =
      items.foldr (fun held total => measure held + total) 0 + measure item := by
  induction items generalizing place with
  | nil => contradiction
  | cons first items ih =>
    cases place with
    | zero =>
      simp only [List.set_cons_zero, List.foldr_cons, List.getElem_cons_zero]
      omega
    | succ place =>
      have hrest := ih (Nat.lt_of_succ_lt_succ h)
      simp only [List.set_cons_succ, List.foldr_cons, List.getElem_cons_succ]
      omega

theorem Group.size_insert {group : Group} {extension : Nat} (h : extension < 8)
    (hfree : group.member extension = none) (descriptor : Descriptor) :
    (group.insert extension descriptor).size = group.size + 1 := by
  rw [member, dif_pos h] at hfree
  unfold size insert
  rw [dif_pos h, Vector.toList_set, List.countP_set (by simpa using h)]
  simp [hfree]

namespace Table

variable {table next : Table} {key : OpcodeKey} {descriptor : Descriptor}

theorem put_put (table : Table) (map : OpcodeMap) (opcode : UInt8) (first second : Entry) :
    (table.put map opcode first).put map opcode second = table.put map opcode second := by
  cases map <;> simp [put]

theorem size_extend {slot : Option Entry} {entry : Entry}
    (h : extend slot key descriptor = .ok entry) :
    entry.size = slot.elim 0 Entry.size + 1 := by
  unfold extend at h
  cases hkey : key.extension with
  | none =>
    rw [hkey] at h
    cases slot with
    | none =>
      cases h
      rfl
    | some held => contradiction
  | some place =>
    simp only [hkey] at h
    split at h
    · contradiction
    next hplace =>
      have hlt : place < 8 := by omega
      rcases slot with _ | _ | group
      · cases h
        exact Group.size_insert hlt (Group.member_empty place) descriptor
      · contradiction
      · dsimp only at h
        split at h
        · contradiction
        next hfree =>
          cases h
          exact Group.size_insert hlt hfree descriptor

theorem slotsSize_set (slots : Slots) {place : Nat} (h : place < 256) (entry : Entry) :
    slotsSize (slots.set place (some entry) h) + slots[place].elim 0 Entry.size =
      slotsSize slots + entry.size := by
  have hplace : place < slots.toList.length := by simpa using h
  have hset := foldr_set (fun slot : Option Entry => slot.elim 0 Entry.size) slots.toList (some entry)
    hplace
  unfold slotsSize
  rw [Vector.toList_set]
  simpa using hset

theorem size_put (table : Table) (map : OpcodeMap) (opcode : UInt8) (entry : Entry) :
    (table.put map opcode entry).size + (table.dispatch map opcode).elim 0 Entry.size =
      table.size + entry.size := by
  cases map with
  | primary =>
    have hset := slotsSize_set table.primary opcode.toNat_lt entry
    simp only [put, size, dispatch, slots]
    omega
  | secondary =>
    have hset := slotsSize_set table.secondary opcode.toNat_lt entry
    simp only [put, size, dispatch, slots]
    omega

theorem size_register (h : table.register key descriptor = .ok next) : next.size = table.size + 1 := by
  obtain ⟨-, -, entry, hextend, rfl⟩ := register_eq_ok_iff.mp h
  have hput := table.size_put key.map key.opcode entry
  have hentry := size_extend hextend
  omega

theorem size_empty : empty.size = 0 := by decide +kernel

/-- The table has these registrations, each under its own key, and nothing else. -/
structure IsMapOf (table : Table) (entries : List (OpcodeKey × Descriptor)) : Prop where
  instruction : ∀ map opcode descriptor,
    table.dispatch map opcode = some (.instruction descriptor) ↔
      (⟨map, opcode, none⟩, descriptor) ∈ entries
  member : ∀ map opcode extension descriptor,
    (∃ group, table.dispatch map opcode = some (.group group) ∧
        group.member extension = some descriptor) ↔
      (⟨map, opcode, some extension⟩, descriptor) ∈ entries
  free : ∀ map opcode, table.dispatch map opcode = none ↔
    ∀ extension descriptor, (⟨map, opcode, extension⟩, descriptor) ∉ entries
  exclusive : ∀ map opcode extension descriptor held,
    (⟨map, opcode, none⟩, descriptor) ∈ entries → (⟨map, opcode, some extension⟩, held) ∉ entries
  nonempty : ∀ map opcode group, table.dispatch map opcode = some (.group group) →
    ∃ extension descriptor, group.member extension = some descriptor
  beyond : ∀ map opcode group extension, table.dispatch map opcode = some (.group group) →
    7 < extension → group.member extension = none
  once : (entries.map Prod.fst).Nodup
  size : table.size = entries.length
  isEmpty : table.isEmpty = true ↔ entries = []

theorem isMapOf_of_lookup {entries : List (OpcodeKey × Descriptor)} (hsound : table.Sound)
    (hlookup : ∀ key descriptor, table.lookup key = some descriptor ↔ (key, descriptor) ∈ entries)
    (honce : (entries.map Prod.fst).Nodup) (hsize : table.size = entries.length) :
    table.IsMapOf entries where
  instruction map opcode descriptor := by
    rw [← hlookup]
    exact ⟨lookup_of_dispatch_instruction, dispatch_of_lookup_none⟩
  member map opcode extension descriptor := by
    rw [← hlookup]
    constructor
    · rintro ⟨group, hslot, hmember⟩
      rw [lookup_of_dispatch_group hslot, hmember]
    · exact dispatch_of_lookup_some
  free map opcode := by
    constructor
    · intro hslot extension descriptor hentry
      rw [← hlookup, lookup, hslot] at hentry
      contradiction
    · intro hnone
      refine dispatch_eq_none hsound fun extension => ?_
      cases hfound : table.lookup ⟨map, opcode, extension⟩ with
      | none => rfl
      | some descriptor => exact absurd ((hlookup _ _).mp hfound) (hnone extension descriptor)
  exclusive map opcode extension descriptor held hinstruction hmember := by
    obtain ⟨group, hslot, -⟩ := dispatch_of_lookup_some ((hlookup _ _).mpr hmember)
    rw [dispatch_of_lookup_none ((hlookup _ _).mpr hinstruction)] at hslot
    cases hslot
  nonempty := hsound.group
  beyond map opcode group extension _ hextension := Group.member_of_le hextension
  once := honce
  size := hsize
  isEmpty := by
    rw [isEmpty, hsize]
    simp

end Table

namespace Builder

variable {table : Table} {map : OpcodeMap} {opcode : UInt8}

theorem getOrInsert_run_none (h : table.dispatch map opcode = none) (entry : Entry) :
    (getOrInsert map opcode entry).run table = .ok entry (table.put map opcode entry) := by
  unfold getOrInsert
  simp only [EStateM.run_bind, EStateM.run_get, h]
  rfl

theorem getOrInsert_run_some {held : Entry} (h : table.dispatch map opcode = some held)
    (entry : Entry) : (getOrInsert map opcode entry).run table = .ok held table := by
  unfold getOrInsert
  simp only [EStateM.run_bind, EStateM.run_get, h]
  rfl

/-- Where a slot has been filled and its place is taken after all, it held an entry before. -/
theorem fill_run (table : Table) (key : OpcodeKey) (descriptor : Descriptor) :
    (fill key descriptor).run table =
      match Table.extend (table.dispatch key.map key.opcode) key descriptor with
      | .ok entry => .ok () (table.put key.map key.opcode entry)
      | .error error => .error error table := by
  unfold fill Table.extend
  cases hextension : key.extension with
  | none =>
    cases hslot : table.dispatch key.map key.opcode with
    | none => simp [hslot]
    | some held => simp [hslot]
  | some extension =>
    by_cases hplace : extension > 7
    · simp [hplace]
    · cases hslot : table.dispatch key.map key.opcode with
      | none =>
        -- The group that has just been put into the slot is empty, so that no check fails behind it.
        simp [hplace, getOrInsert_run_none hslot, Group.member_empty, Table.put_put]
      | some entry =>
        cases entry with
        | instruction held => simp [hplace, getOrInsert_run_some hslot]
        | group group =>
          cases hmember : group.member extension with
          | none => simp [hplace, getOrInsert_run_some hslot, hmember]
          | some held => simp [hplace, getOrInsert_run_some hslot, hmember]

theorem register_run (table : Table) (key : OpcodeKey) (descriptor : Descriptor) :
    (register key descriptor).run table =
      match table.register key descriptor with
      | .ok next => .ok () next
      | .error error => .error error table := by
  unfold register Table.register
  cases descriptor.defect? with
  | some defect => rfl
  | none =>
    cases key.isReserved with
    | true => rfl
    | false =>
      change (fill key descriptor).run table = _
      rw [fill_run]
      cases Table.extend (table.dispatch key.map key.opcode) key descriptor with
      | error error => rfl
      | ok entry => rfl

end Builder

namespace Registry

variable {registry : Registry} {entry : OpcodeKey × Descriptor}

theorem call_of_ok {next : Table} (h : registry.table.register entry.1 entry.2 = .ok next) :
    registry.call entry = ⟨next, registry.accepted ++ [entry]⟩ := by
  unfold call
  rw [Builder.register_run, h]

theorem call_of_error {error : TableError}
    (h : registry.table.register entry.1 entry.2 = .error error) : registry.call entry = registry := by
  unfold call
  rw [Builder.register_run, h]

theorem table_ofCalls (calls : List (OpcodeKey × Descriptor)) :
    (ofCalls calls).table = .ofCalls calls := by
  have hfold : ∀ registry : Registry,
      (calls.foldl call registry).table = calls.foldl Table.attempt registry.table := by
    induction calls with
    | nil => exact fun _ => rfl
    | cons entry calls ih =>
      intro registry
      rw [List.foldl_cons, List.foldl_cons, ih, Table.attempt]
      cases hregister : registry.table.register entry.1 entry.2 with
      | ok next => rw [call_of_ok hregister]
      | error error => rw [call_of_error hregister]
  exact hfold {}

structure Consistent (registry : Registry) : Prop where
  sound : registry.table.Sound
  lookup_iff : ∀ key descriptor,
    registry.table.lookup key = some descriptor ↔ (key, descriptor) ∈ registry.accepted
  once : (registry.accepted.map Prod.fst).Nodup
  size : registry.table.size = registry.accepted.length

theorem consistent_empty : Consistent {} where
  sound := Table.sound_empty
  lookup_iff key descriptor := by simp [Table.lookup_empty]
  once := List.nodup_nil
  size := Table.size_empty

/-- An accepted call takes a key that was free, and a refused one changes nothing. -/
theorem Consistent.call (h : registry.Consistent) (entry : OpcodeKey × Descriptor) :
    (registry.call entry).Consistent := by
  cases hregister : registry.table.register entry.1 entry.2 with
  | error error => rwa [call_of_error hregister]
  | ok next =>
    have hfree := Table.lookup_of_register hregister
    have hnew : ∀ descriptor, (entry.1, descriptor) ∉ registry.accepted := by
      intro descriptor hheld
      rw [(h.lookup_iff _ _).mpr hheld] at hfree
      contradiction
    rw [call_of_ok hregister]
    refine ⟨Table.sound_register h.sound hregister, fun key descriptor => ?_, ?_, ?_⟩
    · rw [Table.lookup_register hregister, List.mem_append, List.mem_singleton]
      split
      · next hkey =>
        subst hkey
        simp [hnew, Prod.ext_iff, eq_comm]
      · next hkey => simp [h.lookup_iff, Prod.ext_iff, hkey]
    · rw [List.map_append, List.nodup_append]
      refine ⟨h.once, by simp, ?_⟩
      intro key hheld other hother heq
      obtain ⟨⟨_, descriptor⟩, hentry, rfl⟩ := List.mem_map.mp hheld
      obtain rfl : other = entry.1 := by simpa using hother
      exact hnew descriptor (heq ▸ hentry)
    · rw [Table.size_register hregister, h.size, List.length_append]
      rfl

theorem Consistent.foldl (h : registry.Consistent) (calls : List (OpcodeKey × Descriptor)) :
    (calls.foldl Registry.call registry).Consistent := by
  induction calls generalizing registry with
  | nil => exact h
  | cons entry calls ih => exact ih (h.call entry)

theorem consistent_ofCalls (calls : List (OpcodeKey × Descriptor)) : (ofCalls calls).Consistent :=
  consistent_empty.foldl calls

theorem accepted_prefix_call (registry : Registry) (entry : OpcodeKey × Descriptor) :
    registry.accepted <+: (registry.call entry).accepted := by
  cases hregister : registry.table.register entry.1 entry.2 with
  | error error => exact ⟨[], by rw [call_of_error hregister, List.append_nil]⟩
  | ok next =>
    rw [call_of_ok hregister]
    exact List.prefix_append _ _

theorem accepted_prefix_foldl (registry : Registry) (calls : List (OpcodeKey × Descriptor)) :
    registry.accepted <+: (calls.foldl call registry).accepted := by
  induction calls generalizing registry with
  | nil => exact List.prefix_rfl
  | cons entry calls ih => exact (registry.accepted_prefix_call entry).trans (ih _)

/-- Whatever calls are made, the table that they leave in place is the map of those that were accepted, and
what has been accepted is found under its key ever after. -/
theorem isMapOf_ofCalls (calls : List (OpcodeKey × Descriptor)) :
    (ofCalls calls).table = .ofCalls calls ∧
      (ofCalls calls).table.IsMapOf (ofCalls calls).accepted ∧
      ∀ more, ∀ entry ∈ (ofCalls calls).accepted,
        (ofCalls (calls ++ more)).table.lookup entry.1 = some entry.2 := by
  have h := consistent_ofCalls calls
  refine ⟨table_ofCalls calls, Table.isMapOf_of_lookup h.sound h.lookup_iff h.once h.size, ?_⟩
  intro more entry hentry
  rw [(consistent_ofCalls (calls ++ more)).lookup_iff, ofCalls, List.foldl_append]
  exact (accepted_prefix_foldl (ofCalls calls) more).subset hentry

end Registry
end IA32
