import IA32.Proofs.Registry

set_option autoImplicit false

namespace IA32

/-- No table takes both keys: they have the same opcode and are not two places of one group. -/
def OpcodeKey.Clashes (key other : OpcodeKey) : Prop :=
  other.map = key.map ∧ other.opcode = key.opcode ∧
    (other.extension = none ∨ other.extension = key.extension ∨ key.extension = none)

theorem OpcodeKey.isReserved_iff (key : OpcodeKey) :
    key.isReserved = true ↔
      key.map = .primary ∧ (key.opcode = escapeByte ∨ Prefix.isByte key.opcode = true) := by
  simp [isReserved]

inductive Refuses (taken : List OpcodeKey) (key : OpcodeKey) (descriptor : Descriptor) :
    TableError → Prop where
  | malformed {defect : Defect} : descriptor.defect? = some defect →
      Refuses taken key descriptor (.malformed key descriptor.mnemonic defect)
  | reserved : descriptor.defect? = none → key.map = .primary →
      (key.opcode = escapeByte ∨ Prefix.isByte key.opcode = true) →
      Refuses taken key descriptor (.reserved key)
  | invalidExtension {extension : Nat} : descriptor.defect? = none → key.isReserved = false →
      key.extension = some extension → 7 < extension →
      Refuses taken key descriptor (.invalidExtension key)
  | duplicate {other : OpcodeKey} : descriptor.defect? = none → key.isReserved = false →
      (∀ extension, key.extension = some extension → extension ≤ 7) → other ∈ taken →
      key.Clashes other → Refuses taken key descriptor (.duplicate key)

namespace Table

variable {table : Table} {key other : OpcodeKey} {descriptor held : Descriptor}

theorem extend_of_gt {slot : Option Entry} {extension : Nat} (hkey : key.extension = some extension)
    (h : 7 < extension) : extend slot key descriptor = .error (.invalidExtension key) := by
  unfold extend
  rw [hkey]
  exact if_pos h

theorem extend_of_clashes (hplace : ∀ extension, key.extension = some extension → extension ≤ 7)
    (hheld : table.lookup other = some held) (h : key.Clashes other) :
    extend (table.dispatch key.map key.opcode) key descriptor = .error (.duplicate key) := by
  obtain ⟨hmap, hopcode, hextension⟩ := h
  unfold lookup at hheld
  rw [hmap, hopcode] at hheld
  obtain ⟨entry, hslot, hlookup⟩ := Option.bind_eq_some_iff.mp hheld
  rw [hslot]
  unfold extend
  cases hkey : key.extension with
  | none => rfl
  | some place =>
    dsimp only
    rw [if_neg (Nat.not_lt.mpr (hplace place hkey))]
    cases entry with
    | instruction found => rfl
    | group group =>
      -- A group holds no key without an extension, so the two extensions are the same.
      cases hother : other.extension with
      | none =>
        rw [hother] at hlookup
        contradiction
      | some extension =>
        obtain rfl : extension = place := by simpa [hother, hkey] using hextension
        rw [hother] at hlookup
        change group.member extension = some held at hlookup
        dsimp only
        rw [hlookup]

theorem exists_extend (hsound : table.Sound)
    (hplace : ∀ extension, key.extension = some extension → extension ≤ 7)
    (h : ∀ other held, table.lookup other = some held → ¬ key.Clashes other) :
    ∃ entry, extend (table.dispatch key.map key.opcode) key descriptor = .ok entry := by
  unfold extend
  cases hkey : key.extension with
  | none =>
    cases hslot : table.dispatch key.map key.opcode with
    | none => exact ⟨_, rfl⟩
    | some entry =>
      cases entry with
      | instruction found =>
        exact absurd ⟨rfl, rfl, .inl rfl⟩ (h _ _ (lookup_of_dispatch_instruction hslot))
      | group group =>
        obtain ⟨extension, found, hmember⟩ := hsound.group _ _ _ hslot
        rw [← lookup_of_dispatch_group hslot] at hmember
        exact absurd ⟨rfl, rfl, .inr (.inr hkey)⟩ (h _ _ hmember)
  | some place =>
    dsimp only
    rw [if_neg (Nat.not_lt.mpr (hplace place hkey))]
    cases hslot : table.dispatch key.map key.opcode with
    | none => exact ⟨_, rfl⟩
    | some entry =>
      cases entry with
      | instruction found =>
        exact absurd ⟨rfl, rfl, .inl rfl⟩ (h _ _ (lookup_of_dispatch_instruction hslot))
      | group group =>
        cases hmember : group.member place with
        | none => exact ⟨.group (group.insert place descriptor), by simp only [hmember]⟩
        | some found =>
          rw [← lookup_of_dispatch_group hslot] at hmember
          exact absurd ⟨rfl, rfl, .inr (.inl hkey.symm)⟩ (h _ _ hmember)

theorem register_of_refuses {taken : List OpcodeKey} {error : TableError}
    (htaken : ∀ other ∈ taken, ∃ held, table.lookup other = some held)
    (h : Refuses taken key descriptor error) : table.register key descriptor = .error error := by
  unfold register
  cases h with
  | malformed hdefect => rw [hdefect]
  | reserved hdefect hmap hopcode =>
    rw [hdefect]
    exact if_pos (key.isReserved_iff.mpr ⟨hmap, hopcode⟩)
  | invalidExtension hdefect hreserved hkey hextension =>
    simp only [hdefect, hreserved]
    rw [extend_of_gt hkey hextension]
    rfl
  | duplicate hdefect hreserved hplace hother hclashes =>
    obtain ⟨held, hheld⟩ := htaken _ hother
    simp only [hdefect, hreserved]
    rw [extend_of_clashes hplace hheld hclashes]
    rfl

theorem register_eq_reserved_iff (h : descriptor.defect? = none) :
    table.register key descriptor = .error (.reserved key) ↔ key.isReserved = true := by
  constructor
  · intro herror
    by_contra hreserved
    unfold register extend at herror
    rw [h, eq_false_of_ne_true hreserved] at herror
    grind [Except.map]
  · intro hreserved
    obtain ⟨hmap, hopcode⟩ := key.isReserved_iff.mp hreserved
    have hnone : ∀ other ∈ ([] : List OpcodeKey), ∃ held, table.lookup other = some held := by simp
    exact register_of_refuses hnone (.reserved h hmap hopcode)

/-- What nothing speaks against is accepted. -/
theorem exists_register_iff (hsound : table.Sound) :
    (∃ next, table.register key descriptor = .ok next) ↔
      descriptor.defect? = none ∧ key.isReserved = false ∧
        (∀ extension, key.extension = some extension → extension ≤ 7) ∧
        ∀ other held, table.lookup other = some held → ¬ key.Clashes other := by
  simp only [register_eq_ok_iff]
  constructor
  · rintro ⟨next, hdefect, hreserved, entry, hextend, -⟩
    have hplace : ∀ extension, key.extension = some extension → extension ≤ 7 := by
      intro extension hkey
      by_contra hextension
      rw [extend_of_gt hkey (by omega)] at hextend
      contradiction
    refine ⟨hdefect, hreserved, hplace, fun other held hheld hclashes => ?_⟩
    rw [extend_of_clashes hplace hheld hclashes] at hextend
    contradiction
  · rintro ⟨hdefect, hreserved, hplace, hfree⟩
    obtain ⟨entry, hextend⟩ : ∃ entry,
        extend (table.dispatch key.map key.opcode) key descriptor = .ok entry :=
      exists_extend hsound hplace hfree
    exact ⟨_, hdefect, hreserved, entry, hextend, rfl⟩

theorem exists_register_or_refuses {taken : List OpcodeKey} (hsound : table.Sound)
    (htaken : ∀ other held, table.lookup other = some held → other ∈ taken) (key : OpcodeKey)
    (descriptor : Descriptor) :
    (∃ next, table.register key descriptor = .ok next) ∨
      ∃ error, Refuses taken key descriptor error := by
  cases hdefect : descriptor.defect? with
  | some defect => exact .inr ⟨_, .malformed hdefect⟩
  | none =>
    cases hreserved : key.isReserved with
    | true =>
      obtain ⟨hmap, hopcode⟩ := key.isReserved_iff.mp hreserved
      exact .inr ⟨_, .reserved hdefect hmap hopcode⟩
    | false =>
      by_cases hplace : ∀ extension, key.extension = some extension → extension ≤ 7
      · by_cases hfree : ∀ other held, table.lookup other = some held → ¬ key.Clashes other
        · exact .inl ((exists_register_iff hsound).mpr ⟨hdefect, hreserved, hplace, hfree⟩)
        · simp only [Classical.not_forall, Classical.not_not] at hfree
          obtain ⟨other, held, hheld, hclashes⟩ := hfree
          exact .inr ⟨_, .duplicate hdefect hreserved hplace (htaken other held hheld) hclashes⟩
      · simp only [Classical.not_forall] at hplace
        obtain ⟨extension, hkey, hextension⟩ := hplace
        exact .inr ⟨_, .invalidExtension hdefect hreserved hkey (Nat.not_le.mp hextension)⟩

end Table

namespace Registry

/-- After any calls, one more is refused with an error exactly if that is why its key is not taken next to
the accepted ones, and whatever it did to the table before it failed, the table is the one it found. What is
not refused is accepted. -/
theorem register_run_eq_error_iff (calls : List (OpcodeKey × Descriptor)) (key : OpcodeKey)
    (descriptor : Descriptor) :
    (∀ error left, (Builder.register key descriptor).run (ofCalls calls).table = .error error left ↔
        Refuses ((ofCalls calls).accepted.map Prod.fst) key descriptor error ∧
          left = (ofCalls calls).table) ∧
      ((∃ next, (Builder.register key descriptor).run (ofCalls calls).table = .ok () next) ↔
        ∀ error, ¬ Refuses ((ofCalls calls).accepted.map Prod.fst) key descriptor error) := by
  have h := consistent_ofCalls calls
  generalize ofCalls calls = registry at h ⊢
  have htaken : ∀ other, other ∈ registry.accepted.map Prod.fst ↔
      ∃ held, registry.table.lookup other = some held := by
    intro other
    simp [h.lookup_iff]
  have hheld : ∀ other held, registry.table.lookup other = some held →
      other ∈ registry.accepted.map Prod.fst :=
    fun other held hlookup => (htaken other).mpr ⟨held, hlookup⟩
  have hrefused : ∀ error, Refuses (registry.accepted.map Prod.fst) key descriptor error →
      registry.table.register key descriptor = .error error :=
    fun error => Table.register_of_refuses fun other => (htaken other).mp
  rw [Builder.register_run]
  rcases Table.exists_register_or_refuses h.sound hheld key descriptor with
    ⟨next, hnext⟩ | ⟨refusal, hrefusal⟩
  · have hnone : ∀ error, ¬ Refuses (registry.accepted.map Prod.fst) key descriptor error := by
      intro error herror
      rw [hrefused error herror] at hnext
      contradiction
    simp [hnext, hnone]
  · have hregister := hrefused refusal hrefusal
    have hiff : ∀ error, Refuses (registry.accepted.map Prod.fst) key descriptor error ↔
        refusal = error := by
      intro error
      constructor
      · intro herror
        exact Except.error.inj (hregister.symm.trans (hrefused error herror))
      · rintro rfl
        exact hrefusal
    simp [hregister, hiff, eq_comm]

end Registry
end IA32
