import IA32.Proofs.Tiling

set_option autoImplicit false

namespace IA32

theorem OpcodeKey.extension_of_read {code rest : List UInt8} {key : OpcodeKey}
    (h : OpcodeKey.read.run code = .ok (key, rest)) : key.extension = none := by
  rcases OpcodeKey.cases_of_read h with ⟨_, _, rfl, _⟩ | ⟨_, rfl, _⟩ <;> rfl

namespace Table

def Includes (next table : Table) : Prop :=
  ∀ key descriptor, table.lookup key = some descriptor → next.lookup key = some descriptor

variable {table next : Table} {key : OpcodeKey} {descriptor : Descriptor} {code : List UInt8}

theorem lookup_of_extend {slot : Option Entry} {entry : Entry}
    (h : extend slot key descriptor = .ok entry) :
    (slot.bind fun held => held.lookup key.extension) = none := by
  unfold extend at h
  cases hkey : key.extension with
  | none =>
    rw [hkey] at h
    cases slot with
    | none => rfl
    | some held => contradiction
  | some place =>
    simp only [hkey] at h
    split at h
    · contradiction
    · rcases slot with _ | _ | group
      · rfl
      · rfl
      · dsimp only at h
        split at h
        · contradiction
        · next hfree => exact hfree

theorem lookup_of_register (h : table.register key descriptor = .ok next) :
    table.lookup key = none := by
  obtain ⟨-, -, entry, hextend, -⟩ := register_eq_ok_iff.mp h
  exact lookup_of_extend hextend

theorem includes_register (h : table.register key descriptor = .ok next) : next.Includes table := by
  intro other held hheld
  have hne : other ≠ key := by
    rintro rfl
    rw [lookup_of_register h] at hheld
    contradiction
  rw [lookup_register h, if_neg hne, hheld]

theorem registerAll_cons_eq_ok_iff {entry : OpcodeKey × Descriptor}
    {entries : List (OpcodeKey × Descriptor)} :
    table.registerAll (entry :: entries) = .ok next ↔
      ∃ middle, table.register entry.1 entry.2 = .ok middle ∧ middle.registerAll entries = .ok next := by
  unfold registerAll
  rw [List.foldlM_cons]
  cases table.register entry.1 entry.2 with
  | error refusal => simp [bind, Except.bind]
  | ok middle => simp [bind, Except.bind]

theorem includes_registerAll {entries : List (OpcodeKey × Descriptor)}
    (h : table.registerAll entries = .ok next) : next.Includes table := by
  induction entries generalizing table with
  | nil =>
    cases h
    exact fun _ _ hheld => hheld
  | cons entry entries ih =>
    obtain ⟨middle, hfirst, hrest⟩ := registerAll_cons_eq_ok_iff.mp h
    intro key descriptor hheld
    exact ih hrest key descriptor (includes_register hfirst key descriptor hheld)

theorem eq_ofCalls_of_registerAll {calls entries : List (OpcodeKey × Descriptor)}
    (h : (ofCalls calls).registerAll entries = .ok next) : next = ofCalls (calls ++ entries) := by
  induction entries generalizing calls with
  | nil =>
    cases h
    rw [List.append_nil]
  | cons entry entries ih =>
    obtain ⟨middle, hfirst, hrest⟩ := registerAll_cons_eq_ok_iff.mp h
    have hmiddle : middle = ofCalls (calls ++ [entry]) := by
      rw [ofCalls, List.foldl_append]
      change middle = attempt (ofCalls calls) entry
      rw [attempt, hfirst]
    rw [hmiddle] at hrest
    rw [ih hrest, List.append_assoc]
    rfl

theorem lookup_registerAll_iff {entries : List (OpcodeKey × Descriptor)}
    (h : table.registerAll entries = .ok next) (key : OpcodeKey) (descriptor : Descriptor) :
    next.lookup key = some descriptor ↔
      table.lookup key = some descriptor ∨ (key, descriptor) ∈ entries := by
  induction entries generalizing table with
  | nil =>
    cases h
    simp
  | cons entry entries ih =>
    obtain ⟨middle, hfirst, hrest⟩ := registerAll_cons_eq_ok_iff.mp h
    rw [ih hrest, lookup_register hfirst, List.mem_cons]
    split
    · next hkey =>
      have hfree : table.lookup key = none := hkey ▸ lookup_of_register hfirst
      have hentry : (key, descriptor) = entry ↔ some entry.2 = some descriptor := by
        rw [hkey, Option.some_inj, Prod.ext_iff]
        simp [eq_comm]
      simp [hfree, hentry]
    · next hkey =>
      have hentry : (key, descriptor) ≠ entry := fun heq => hkey (congrArg Prod.fst heq)
      simp [hentry]

theorem lookup_ofCalls_iff (calls : List (OpcodeKey × Descriptor))
    (h : (empty.registerAll calls).toOption.isSome = true) (key : OpcodeKey) (descriptor : Descriptor) :
    (ofCalls calls).lookup key = some descriptor ↔ (key, descriptor) ∈ calls := by
  obtain ⟨next, hnext⟩ : ∃ next, (ofCalls []).registerAll calls = .ok next := ⟨_, eq_ok_getD .empty h⟩
  have hcalls : next = ofCalls ([] ++ calls) := eq_ofCalls_of_registerAll hnext
  rw [List.nil_append] at hcalls
  rw [← hcalls, lookup_registerAll_iff hnext, show ofCalls [] = empty from rfl, lookup_empty]
  simp

theorem builtin_eq_ofCalls : builtin = ofCalls Builtin.registrations := by
  have haccepted : (ofCalls []).registerAll Builtin.registrations = .ok builtin := builtin_accepted
  have hcalls := eq_ofCalls_of_registerAll haccepted
  rwa [List.nil_append] at hcalls

theorem sound_builtin : builtin.Sound := builtin_eq_ofCalls ▸ sound_ofCalls _

theorem lookup_builtin_iff (key : OpcodeKey) (descriptor : Descriptor) :
    builtin.lookup key = some descriptor ↔ (key, descriptor) ∈ Builtin.registrations := by
  rw [lookup_registerAll_iff builtin_accepted, lookup_empty]
  simp

theorem lookup_of_mem_arithmetic {entry : Builtin.Registration} (h : entry ∈ Builtin.arithmetic) :
    builtin.lookup entry.1 = some entry.2 := by
  refine (lookup_builtin_iff _ _).mpr ?_
  simp only [Builtin.registrations, List.append_assoc]
  exact List.mem_append_left _ h

/-- A slot that is filled stays what it is; a group only gains members. -/
theorem select_run_of_includes (hsound : table.Sound) (hnext : next.Includes table)
    (hkey : key.extension = none)
    (h : ∀ missing, (table.select key).run code ≠ .error (.fault (.unsupportedOpcode missing))) :
    (next.select key).run code = (table.select key).run code := by
  obtain ⟨map, opcode, extension⟩ := key
  obtain rfl : extension = none := hkey
  cases hslot : table.dispatch map opcode with
  | none =>
    have hmissing : table.select ⟨map, opcode, none⟩ =
        .fail (.unsupportedOpcode ⟨map, opcode, none⟩) := by
      unfold select
      simp only [hslot]
    rw [hmissing] at h
    exact absurd rfl (h _)
  | some entry =>
    cases entry with
    | instruction descriptor =>
      have hlookup := lookup_of_dispatch_instruction hslot
      have hlarger := dispatch_of_lookup_none (hnext _ _ hlookup)
      unfold select
      simp only [hslot, hlarger]
    | group group =>
      have hlookup := lookup_of_dispatch_group hslot
      obtain ⟨extension, descriptor, hmember⟩ := hsound.group map opcode group hslot
      have hfirst := (hlookup extension).trans hmember
      obtain ⟨larger, hlarger, -⟩ := dispatch_of_lookup_some (hnext _ _ hfirst)
      -- The larger table has a group in the same slot, so both wait for a mode byte. A member that the
      -- smaller one has is still there; a place that is free in it is the excluded case.
      cases code with
      | nil =>
        rw [select_run_nil (.inr ⟨extension, descriptor, hfirst⟩),
          select_run_nil (.inr ⟨extension, descriptor, hnext _ _ hfirst⟩)]
      | cons byte rest =>
        rw [select_group_run hslot] at h ⊢
        cases hfound : group.member (ModeByte.ofByte byte).reg with
        | none =>
          rw [hfound] at h
          exact absurd rfl (h _)
        | some found =>
          have hkept := hnext _ _ ((hlookup _).trans hfound)
          rw [lookup_of_dispatch_group hlarger] at hkept
          rw [select_group_run hlarger, hkept]

theorem readBody_run_of_includes (hsound : table.Sound) (hnext : next.Includes table)
    (context : Context)
    (h : ∀ missing, (table.readBody context).run code ≠
      .error (.fault (.unsupportedOpcode missing))) :
    (next.readBody context).run code = (table.readBody context).run code := by
  rw [readBody_run_eq] at h ⊢
  rw [readBody_run_eq]
  cases hread : OpcodeKey.read.run code with
  | error halt => rfl
  | ok read =>
    rw [hread] at h
    change ∀ missing, ((table.select read.1).run read.2 >>= _) ≠ _ at h
    have hselect : (next.select read.1).run read.2 = (table.select read.1).run read.2 := by
      apply select_run_of_includes hsound hnext (OpcodeKey.extension_of_read hread)
      intro missing hmissing
      rw [hmissing] at h
      exact absurd rfl (h missing)
    change ((next.select read.1).run read.2 >>= _) = _
    rw [hselect]
    rfl

end Table

namespace Decoder

variable {table next : Table} {config : Config} {image : List UInt8} {start : Nat}
  {base : Option UInt64}

theorem decode_of_includes (hsound : table.Sound) (hnext : next.Includes table)
    (h : ∀ error key, (Decoder.mk table config).decode image start base = .error error →
      error.cause ≠ .unsupportedOpcode key) :
    (Decoder.mk next config).decode image start base =
      (Decoder.mk table config).decode image start base := by
  by_cases hstart : start ≤ image.length
  · have hcode : (Decoder.mk next config).readCode (image.drop start) =
        (Decoder.mk table config).readCode (image.drop start) := by
      unfold readCode readBehind
      rw [Table.readBody_run_of_includes hsound hnext]
      intro key hkey
      have hfault : (Decoder.mk table config).readBehind
          ((image.drop start).takeWhile Prefix.isByte) ((image.drop start).dropWhile Prefix.isByte) =
            .error (.fault (.unsupportedOpcode key)) := by
        unfold readBehind
        rw [hkey]
        rfl
      exact h _ key (decode_of_fault hfault base) rfl
    rw [decode_eq_place _ hstart base, decode_eq_place _ hstart base, hcode]
    rfl
  · rw [decode_of_outside _ (by omega) base, decode_of_outside _ (by omega) base]

theorem Tiling.of_includes {stop : Nat} {instructions : List Instruction} (hsound : table.Sound)
    (hnext : next.Includes table)
    (h : (Decoder.mk table config).Tiling image base start instructions stop) :
    (Decoder.mk next config).Tiling image base start instructions stop := by
  apply h.mono
  intro offset found hfound
  rw [decode_of_includes hsound hnext ?_, hfound]
  intro error key herror
  rw [hfound] at herror
  contradiction

theorem Stops.of_includes {stopped : Option DecodeError} (hsound : table.Sound)
    (hnext : next.Includes table) (h : (Decoder.mk table config).Stops image base start stopped)
    (hkind : ∀ error key, stopped = some error → error.cause ≠ .unsupportedOpcode key) :
    (Decoder.mk next config).Stops image base start stopped := by
  cases h with
  | complete hend => exact .complete hend
  | failed hend herror =>
    refine .failed hend ?_
    rw [decode_of_includes hsound hnext ?_, herror]
    intro same key hsame
    rw [herror] at hsame
    exact hkind same key (congrArg some (Except.error.inj hsame))

/-- Registrations change nothing but decodes of keys that were not registered, and add only to the end of a
sweep that stopped at such a key. -/
theorem decode_of_registerAll (calls more : List (OpcodeKey × Descriptor)) (config : Config)
    {next : Table} (h : (Table.ofCalls calls).registerAll more = .ok next) (image : List UInt8)
    (start : Nat) (base : Option UInt64) :
    ((∀ error key, (Decoder.mk (.ofCalls calls) config).decode image start base = .error error →
        error.cause ≠ .unsupportedOpcode key) →
      (Decoder.mk next config).decode image start base =
        (Decoder.mk (.ofCalls calls) config).decode image start base) ∧
    ((Decoder.mk (.ofCalls calls) config).sweep image start base).instructions <+:
      ((Decoder.mk next config).sweep image start base).instructions ∧
    ((∀ error key, ((Decoder.mk (.ofCalls calls) config).sweep image start base).error = some error →
        error.cause ≠ .unsupportedOpcode key) →
      (Decoder.mk next config).sweep image start base =
        (Decoder.mk (.ofCalls calls) config).sweep image start base) := by
  have hsound := Table.sound_ofCalls calls
  have hnext := Table.includes_registerAll h
  obtain ⟨htiling, hstops⟩ := tiling_sweep (Decoder.mk (.ofCalls calls) config) image start base
  have hlarger := htiling.of_includes hsound hnext
  refine ⟨decode_of_includes hsound hnext, ?_, fun hkind => ?_⟩
  · rw [hlarger.sweep_eq]
    exact List.prefix_append _ _
  · exact hlarger.sweep_eq_of_stops (hstops.of_includes hsound hnext hkind)

theorem decode_of_registerAll_add :
    let jump := Builtin.primary 0xEB (Builtin.transfer "jmp" .jump [Builtin.Jb])
    let add := Builtin.member 0x81 0 (Builtin.general "add" [Builtin.Ev, Builtin.Iv])
    (Table.ofCalls [jump]).registerAll [add] = .ok (.ofCalls [jump, add]) ∧
      (Decoder.mk (.ofCalls [jump]) {}).decode [0x81] 0 none =
        .error ⟨0, .unsupportedOpcode (.primary 0x81)⟩ ∧
      (Decoder.mk (.ofCalls [jump, add]) {}).decode [0x81] 0 none = .error ⟨0, .truncated 1⟩ ∧
      (Decoder.mk (.ofCalls [jump]) {}).decode [0x66, 0xEB] 0 none = .error ⟨0, .truncated 2⟩ ∧
      (Decoder.mk (.ofCalls [jump, add]) {}).decode [0x66, 0xEB] 0 none =
        .error ⟨0, .truncated 2⟩ := by
  intro jump add
  have haccepted : ((Table.ofCalls [jump]).registerAll [add]).toOption.isSome = true := by
    decide +kernel
  have hnext := Table.eq_ok_getD .empty haccepted
  rw [Table.eq_ofCalls_of_registerAll hnext, List.singleton_append] at hnext
  have hcut : (Decoder.mk (.ofCalls [jump]) {}).decode [0x66, 0xEB] 0 none =
      .error ⟨0, .truncated 2⟩ := by decide +kernel
  refine ⟨hnext, by decide +kernel, by decide +kernel, hcut, ?_⟩
  obtain ⟨hsame, -, -⟩ := decode_of_registerAll [jump] [add] {} hnext [0x66, 0xEB] 0 none
  refine Eq.trans (hsame ?_) hcut
  intro error key herror
  rw [hcut] at herror
  cases herror
  simp

end Decoder
end IA32
