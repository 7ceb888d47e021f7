import IA32.Proofs.Refusals

set_option autoImplicit false

namespace IA32

theorem OpcodeKey.Clashes.symm {key other : OpcodeKey} (h : key.Clashes other) : other.Clashes key := by
  obtain ⟨hmap, hopcode, hextension⟩ := h
  refine ⟨hmap.symm, hopcode.symm, ?_⟩
  rcases hextension with hother | hsame | hkey
  · exact .inr (.inr hother)
  · exact .inr (.inl hsame.symm)
  · exact .inl hkey

theorem Group.eq_of_member {group other : Group}
    (h : ∀ extension, group.member extension = other.member extension) : group = other := by
  obtain ⟨members⟩ := group
  obtain ⟨others⟩ := other
  congr 1
  refine Vector.ext fun place hplace => ?_
  have hmember := h place
  unfold member at hmember
  rwa [dif_pos hplace, dif_pos hplace] at hmember

namespace Table

variable {table next : Table} {key : OpcodeKey} {descriptor : Descriptor}
  {entries others : List (OpcodeKey × Descriptor)}

theorem eq_of_dispatch
    (h : ∀ map opcode, table.dispatch map opcode = next.dispatch map opcode) : table = next := by
  have hslots : ∀ map, table.slots map = next.slots map := by
    intro map
    refine Vector.ext fun place hplace => ?_
    have hslot := h map (.ofNat place)
    have hopcode : (UInt8.ofNat place).toNat = place := by
      rw [UInt8.toNat_ofNat', Nat.mod_eq_of_lt hplace]
    unfold dispatch at hslot
    simpa only [hopcode] using hslot
  obtain ⟨primary, secondary⟩ := table
  obtain ⟨others, rest⟩ := next
  obtain rfl : primary = others := hslots .primary
  obtain rfl : secondary = rest := hslots .secondary
  rfl

/-- Sound tables with the same registrations are the same: a group is there only for its members. -/
theorem eq_of_lookup (hsound : table.Sound) (hnext : next.Sound)
    (h : ∀ key, table.lookup key = next.lookup key) : table = next := by
  refine eq_of_dispatch fun map opcode => ?_
  cases hslot : table.dispatch map opcode with
  | none =>
    refine (dispatch_eq_none hnext fun extension => ?_).symm
    rw [← h, lookup, hslot]
    rfl
  | some entry =>
    cases entry with
    | instruction held =>
      have hlookup := lookup_of_dispatch_instruction hslot
      rw [h] at hlookup
      exact (dispatch_of_lookup_none hlookup).symm
    | group group =>
      obtain ⟨extension, held, hmember⟩ := hsound.group map opcode group hslot
      rw [← lookup_of_dispatch_group hslot, h] at hmember
      obtain ⟨other, hother, -⟩ := dispatch_of_lookup_some hmember
      have hsame : group = other := Group.eq_of_member fun place => by
        rw [← lookup_of_dispatch_group hslot, ← lookup_of_dispatch_group hother, h]
      rw [hother, hsame]

/-- An accepted registration stands in the way of those that it clashes with, and of no others. -/
theorem exists_register_next_iff (hsound : table.Sound) (h : table.register key descriptor = .ok next)
    (other : OpcodeKey) (held : Descriptor) :
    (∃ last, next.register other held = .ok last) ↔
      (∃ last, table.register other held = .ok last) ∧ ¬ key.Clashes other := by
  rw [exists_register_iff (sound_register hsound h), exists_register_iff hsound]
  constructor
  · rintro ⟨hdefect, hreserved, hplace, hfree⟩
    refine ⟨⟨hdefect, hreserved, hplace, fun taken found hfound => ?_⟩, fun hclashes => ?_⟩
    · exact hfree taken found (includes_register h taken found hfound)
    · refine hfree key descriptor ?_ hclashes.symm
      rw [lookup_register h, if_pos rfl]
  · rintro ⟨⟨hdefect, hreserved, hplace, hfree⟩, hclear⟩
    refine ⟨hdefect, hreserved, hplace, fun taken found hfound => ?_⟩
    rw [lookup_register h] at hfound
    split at hfound
    · next hkey =>
      subst hkey
      exact fun hclashes => hclear hclashes.symm
    · exact hfree taken found hfound

theorem exists_registerAll_iff (hsound : table.Sound) :
    (∃ next, table.registerAll entries = .ok next) ↔
      (∀ entry ∈ entries, ∃ next, table.register entry.1 entry.2 = .ok next) ∧
        entries.Pairwise fun first second => ¬ first.1.Clashes second.1 := by
  induction entries generalizing table with
  | nil =>
    constructor
    · exact fun _ => ⟨by simp, .nil⟩
    · exact fun _ => ⟨table, rfl⟩
  | cons entry entries ih =>
    simp only [registerAll_cons_eq_ok_iff, List.pairwise_cons, List.forall_mem_cons]
    constructor
    · rintro ⟨next, middle, hfirst, hrest⟩
      obtain ⟨hall, hpairs⟩ := (ih (sound_register hsound hfirst)).mp ⟨next, hrest⟩
      have hboth := fun other hother =>
        (exists_register_next_iff hsound hfirst other.1 other.2).mp (hall other hother)
      exact ⟨⟨⟨middle, hfirst⟩, fun other hother => (hboth other hother).1⟩,
        fun other hother => (hboth other hother).2, hpairs⟩
    · rintro ⟨⟨⟨middle, hfirst⟩, hall⟩, hclear, hpairs⟩
      have hmiddle : ∀ other ∈ entries, ∃ last, middle.register other.1 other.2 = .ok last :=
        fun other hother => (exists_register_next_iff hsound hfirst other.1 other.2).mpr
          ⟨hall other hother, hclear other hother⟩
      obtain ⟨next, hrest⟩ := (ih (sound_register hsound hfirst)).mpr ⟨hmiddle, hpairs⟩
      exact ⟨next, middle, hfirst, hrest⟩

theorem exists_registerAll_of_perm (hperm : entries.Perm others) (hsound : table.Sound)
    (h : ∃ next, table.registerAll entries = .ok next) :
    ∃ next, table.registerAll others = .ok next := by
  rw [exists_registerAll_iff hsound] at h ⊢
  obtain ⟨hall, hpairs⟩ := h
  refine ⟨fun entry hentry => hall entry (hperm.mem_iff.mpr hentry), ?_⟩
  have hsymm : ∀ {first second : OpcodeKey × Descriptor}, ¬ first.1.Clashes second.1 →
      ¬ second.1.Clashes first.1 := fun hclear hclashes => hclear hclashes.symm
  exact (hperm.pairwise_iff hsymm).mp hpairs

theorem sound_registerAll (hsound : table.Sound) (h : table.registerAll entries = .ok next) :
    next.Sound := by
  induction entries generalizing table with
  | nil =>
    cases h
    exact hsound
  | cons entry entries ih =>
    obtain ⟨middle, hfirst, hrest⟩ := registerAll_cons_eq_ok_iff.mp h
    exact ih (sound_register hsound hfirst) hrest

theorem registerAll_perm (hperm : entries.Perm others) (hsound : table.Sound)
    (h : table.registerAll entries = .ok next) : table.registerAll others = .ok next := by
  obtain ⟨last, hlast⟩ := exists_registerAll_of_perm hperm hsound ⟨next, h⟩
  have hlookup : ∀ key, last.lookup key = next.lookup key := by
    intro key
    refine Option.ext fun descriptor => ?_
    rw [lookup_registerAll_iff hlast, lookup_registerAll_iff h, hperm.mem_iff]
  rw [hlast, eq_of_lookup (sound_registerAll hsound hlast) (sound_registerAll hsound h) hlookup]

end Table

namespace Decoder

/-- Registrations that are all accepted in one order are so in any other, and make the same table and so the
same decoder. -/
theorem decode_of_registerAll_perm {entries others : List (OpcodeKey × Descriptor)} {table : Table}
    (hperm : entries.Perm others) (h : Table.empty.registerAll entries = .ok table) :
    ∃ next, Table.empty.registerAll others = .ok next ∧
      (∀ map opcode, next.dispatch map opcode = table.dispatch map opcode) ∧
      next.size = table.size ∧
      ∀ config image start base, (Decoder.mk next config).decode image start base =
        (Decoder.mk table config).decode image start base :=
  ⟨table, Table.registerAll_perm hperm Table.sound_empty h, fun _ _ => rfl, rfl, fun _ _ _ _ => rfl⟩

theorem decode_of_registerAll_perm_group :
    let call := Builtin.member 0xFF 2 (Builtin.transfer "call" .call [Builtin.Ev])
    let inc := Builtin.member 0xFF 0 (Builtin.general "inc" [Builtin.Ev])
    let nop := Builtin.primary 0x90 (Builtin.general "nop" [])
    [call, nop, inc].Perm [inc, call, nop] ∧
      ∃ table, Table.empty.registerAll [call, nop, inc] = .ok table ∧
        ∃ next, Table.empty.registerAll [inc, call, nop] = .ok next ∧ next.size = table.size := by
  intro call inc nop
  have hperm : [call, nop, inc].Perm [inc, call, nop] := by decide +kernel
  have haccepted : (Table.empty.registerAll [call, nop, inc]).toOption.isSome = true := by
    decide +kernel
  have htable := Table.eq_ok_getD .empty haccepted
  obtain ⟨next, hnext, -, hsize, -⟩ := decode_of_registerAll_perm hperm htable
  exact ⟨hperm, _, htable, next, hnext, hsize⟩

end Decoder
end IA32
