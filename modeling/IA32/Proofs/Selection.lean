import IA32.Proofs.Lengths

set_option autoImplicit false

namespace IA32

theorem OpcodeKey.isReserved_primary_eq_false_iff {opcode : UInt8} {extension : Option Nat} :
    isReserved ⟨.primary, opcode, extension⟩ = false ↔
      Prefix.isByte opcode = false ∧ opcode ≠ escapeByte := by
  simp [isReserved, and_comm]

theorem OpcodeKey.exists_spells_iff (key : OpcodeKey) :
    (∃ bytes, Spells bytes key.map key.opcode) ↔ key.isReserved = false := by
  obtain ⟨map, opcode, extension⟩ := key
  cases map with
  | primary =>
    rw [isReserved_primary_eq_false_iff]
    constructor
    · rintro ⟨_, ⟨hbyte, hescape⟩⟩
      exact ⟨hbyte, hescape⟩
    · rintro ⟨hbyte, hescape⟩
      exact ⟨_, .primary hbyte hescape⟩
  | secondary => exact ⟨fun _ => rfl, fun _ => ⟨_, .secondary⟩⟩

theorem OpcodeKey.spells_of_read {key : OpcodeKey} {code rest : List UInt8}
    (hcode : ∀ byte rest, code = byte :: rest → Prefix.isByte byte = false)
    (h : OpcodeKey.read.run code = .ok (key, rest)) :
    ∃ bytes, Spells bytes key.map key.opcode ∧ key.extension = none ∧ code = bytes ++ rest := by
  rcases OpcodeKey.cases_of_read h with ⟨opcode, hescape, rfl, rfl⟩ | ⟨opcode, rfl, rfl⟩
  · exact ⟨[opcode], .primary (hcode _ _ rfl) hescape, rfl, rfl⟩
  · exact ⟨[escapeByte, opcode], .secondary, rfl, rfl⟩

theorem Cursor.exists_read_behindPrefixes_iff {α : Type} {image : List UInt8} {start : Nat}
    {reader : Reader α} {value : α} :
    (∃ next, (behindPrefixes image start).read image reader = .ok (value, next)) ↔
      ∃ rest, reader.run ((image.drop start).dropWhile Prefix.isByte) = .ok (value, rest) := by
  have hbehind : image.drop (behindPrefixes image start).pos =
      (image.drop start).dropWhile Prefix.isByte := by
    rw [behindPrefixes_eq, ← List.drop_drop, PrefixState.drop_length_takeWhile]
  unfold read
  simp only [hbehind]
  cases reader.run ((image.drop start).dropWhile Prefix.isByte) with
  | error halt => simp
  | ok result =>
    obtain ⟨found, rest⟩ := result
    simp

namespace Table

variable {table next : Table} {selection : Selection} {map : OpcodeMap} {opcode : UInt8}
  {code tail : List UInt8}

theorem grants_of_select_run (h : (table.select ⟨map, opcode, none⟩).run code = .ok (selection, tail)) :
    selection.key.map = map ∧ selection.key.opcode = opcode ∧ table.Grants selection ∧
      ∃ byte : Option UInt8, byte.map ModeByte.ofByte = selection.modeByte ∧
        code = byte.toList ++ tail := by
  cases hslot : table.dispatch map opcode with
  | none =>
    unfold select at h
    simp only [hslot] at h
    contradiction
  | some entry =>
    cases entry with
    | instruction descriptor =>
      have hlookup := lookup_of_dispatch_instruction hslot
      unfold select at h
      simp only [hslot] at h
      cases hneeds : descriptor.needsModeByte with
      | false =>
        simp only [hneeds] at h
        cases h
        exact ⟨rfl, rfl, .plain hlookup hneeds, none, rfl, rfl⟩
      | true =>
        simp only [hneeds] at h
        rcases code with _ | ⟨raw, code⟩
        · contradiction
        · cases h
          exact ⟨rfl, rfl, .withModeByte hlookup hneeds, some raw, rfl, rfl⟩
    | group group =>
      rcases code with _ | ⟨raw, code⟩
      · unfold select at h
        simp only [hslot] at h
        contradiction
      · rw [select_group_run hslot] at h
        cases hmember : group.member (ModeByte.ofByte raw).reg with
        | none =>
          rw [hmember] at h
          contradiction
        | some descriptor =>
          rw [hmember] at h
          cases h
          rw [← lookup_of_dispatch_group hslot] at hmember
          exact ⟨rfl, rfl, .member hmember, some raw, rfl, rfl⟩

theorem locates_iff (hcode : ∀ byte rest, code = byte :: rest → Prefix.isByte byte = false) :
    table.Locates code selection tail ↔
      (OpcodeKey.read >>= table.select).run code = .ok (selection, tail) := by
  constructor
  · rintro ⟨bytes, byte, hspells, hgrants, hbyte, rfl⟩
    rw [Reader.run_bind, readKey_run hspells]
    exact hgrants.select_run hbyte tail
  · intro h
    obtain ⟨⟨map, opcode, extension⟩, behind, hread, hselect⟩ := Reader.run_bind_eq_ok h
    obtain ⟨bytes, hspells, hkey, rfl⟩ := OpcodeKey.spells_of_read hcode hread
    obtain rfl : extension = none := hkey
    obtain ⟨rfl, rfl, hgrants, byte, hbyte, rfl⟩ := grants_of_select_run hselect
    exact ⟨bytes, byte, hspells, hgrants, hbyte, rfl⟩

theorem readBody_run_of_dispatch (context : Context)
    (h : ∀ key rest, OpcodeKey.read.run code = .ok (key, rest) →
      next.dispatch key.map key.opcode = table.dispatch key.map key.opcode) :
    (next.readBody context).run code = (table.readBody context).run code := by
  rw [readBody_run_eq, readBody_run_eq]
  cases hread : OpcodeKey.read.run code with
  | error halt => rfl
  | ok read =>
    have hselect : next.select read.1 = table.select read.1 := by
      unfold select
      rw [h read.1 read.2 hread]
    change ((next.select read.1).run read.2 >>= _) = ((table.select read.1).run read.2 >>= _)
    rw [hselect]

end Table

def LooksUp (image : List UInt8) (start : Nat) (key : OpcodeKey) : Prop :=
  ∃ next, (Cursor.behindPrefixes image start).read image OpcodeKey.read = .ok (key, next)

theorem looksUp_iff {image : List UInt8} {start : Nat} {key : OpcodeKey} :
    LooksUp image start key ↔ key.extension = none ∧ ∃ bytes rest, Spells bytes key.map key.opcode ∧
      (image.drop start).dropWhile Prefix.isByte = bytes ++ rest := by
  unfold LooksUp
  rw [Cursor.exists_read_behindPrefixes_iff]
  constructor
  · rintro ⟨rest, hread⟩
    obtain ⟨bytes, hspells, hkey, hcode⟩ :=
      OpcodeKey.spells_of_read (fun _ _ => PrefixState.isByte_of_dropWhile) hread
    exact ⟨hkey, bytes, rest, hspells, hcode⟩
  · rintro ⟨hkey, bytes, rest, hspells, hcode⟩
    obtain ⟨map, opcode, extension⟩ := key
    obtain rfl : extension = none := hkey
    exact ⟨rest, hcode ▸ Table.readKey_run hspells rest⟩

theorem LooksUp.isReserved {image : List UInt8} {start : Nat} {key : OpcodeKey}
    (h : LooksUp image start key) : key.isReserved = false := by
  obtain ⟨-, bytes, -, hspells, -⟩ := looksUp_iff.mp h
  exact key.exists_spells_iff.mp ⟨bytes, hspells⟩

theorem forall_not_looksUp_iff (map : OpcodeMap) (opcode : UInt8) :
    (∀ image start, ¬ LooksUp image start ⟨map, opcode, none⟩) ↔
      OpcodeKey.isReserved ⟨map, opcode, none⟩ = true := by
  constructor
  · intro h
    by_contra hreserved
    obtain ⟨bytes, hspells⟩ := (OpcodeKey.exists_spells_iff _).mpr (eq_false_of_ne_true hreserved)
    obtain ⟨byte, rest, rfl, hbyte⟩ := hspells.exists_cons
    refine h (byte :: rest) 0 (looksUp_iff.mpr ⟨rfl, _, [], hspells, ?_⟩)
    rw [List.drop_zero, List.append_nil, List.dropWhile_cons_of_neg (by simp [hbyte])]
  · intro hreserved image start h
    rw [h.isReserved] at hreserved
    contradiction

namespace Decoder

variable {decoder : Decoder} {image : List UInt8} {start : Nat} {base : Option UInt64}
  {key : OpcodeKey} {descriptor : Descriptor}

def Finds (decoder : Decoder) (image : List UInt8) (start : Nat) (key : OpcodeKey)
    (descriptor : Descriptor) : Prop :=
  ∃ selection next, selection.key = key ∧ selection.descriptor = descriptor ∧
    (Cursor.behindPrefixes image start).read image (OpcodeKey.read >>= decoder.table.select) =
      .ok (selection, next)

def Ignores (decoder : Decoder) (map : OpcodeMap) (opcode : UInt8) : Prop :=
  ∀ next : Table,
    (∀ other byte, other ≠ map ∨ byte ≠ opcode →
      next.dispatch other byte = decoder.table.dispatch other byte) →
    ∀ image start base,
      (Decoder.mk next decoder.config).decode image start base = decoder.decode image start base

theorem finds_iff : decoder.Finds image start key descriptor ↔ ∃ modeByte tail,
    decoder.table.Locates ((image.drop start).dropWhile Prefix.isByte) ⟨key, descriptor, modeByte⟩
      tail := by
  simp only [Table.locates_iff fun _ _ => PrefixState.isByte_of_dropWhile]
  constructor
  · rintro ⟨⟨_, _, modeByte⟩, next, rfl, rfl, hread⟩
    obtain ⟨tail, hrun⟩ := Cursor.exists_read_behindPrefixes_iff.mp ⟨next, hread⟩
    exact ⟨modeByte, tail, hrun⟩
  · rintro ⟨modeByte, tail, hrun⟩
    obtain ⟨next, hread⟩ := Cursor.exists_read_behindPrefixes_iff.mpr ⟨tail, hrun⟩
    exact ⟨_, next, rfl, rfl, hread⟩

/-- The table has no part in a decode but by the slot that is looked up. -/
theorem decode_of_dispatch {table next : Table} (config : Config)
    (h : ∀ key, LooksUp image start key →
      next.dispatch key.map key.opcode = table.dispatch key.map key.opcode) :
    (Decoder.mk next config).decode image start base =
      (Decoder.mk table config).decode image start base := by
  by_cases hstart : start ≤ image.length
  · have hcode : (Decoder.mk next config).readCode (image.drop start) =
        (Decoder.mk table config).readCode (image.drop start) := by
      unfold readCode readBehind
      rw [Table.readBody_run_of_dispatch]
      intro key rest hread
      exact h key (Cursor.exists_read_behindPrefixes_iff.mpr ⟨rest, hread⟩)
    rw [decode_eq_place _ hstart base, decode_eq_place _ hstart base, hcode]
    rfl
  · rw [decode_of_outside _ (by omega) base, decode_of_outside _ (by omega) base]

theorem readCode_put (table : Table) (config : Config) {opcode : UInt8} (name : String)
    (h : OpcodeKey.isReserved (.primary opcode) = false) :
    (Decoder.mk (table.put .primary opcode (.instruction { mnemonic := name })) config).readCode
        [opcode] =
      .ok ⟨.ofRun [], ⟨⟨.primary opcode, { mnemonic := name }, none⟩, []⟩, 1⟩ := by
  obtain ⟨hbyte, hescape⟩ := OpcodeKey.isReserved_primary_eq_false_iff.mp h
  have hrun : ∀ byte ∈ ([] : List UInt8), Prefix.isByte byte = true := by simp
  rw [← List.nil_append [opcode], readCode_run_append hrun hbyte]
  unfold readBehind
  rw [← List.append_nil [opcode], Table.readBody_run (.primary hbyte hescape), Table.select,
    Table.dispatch_put, if_pos ⟨rfl, rfl⟩]
  rfl

theorem ignores_primary_iff (decoder : Decoder) (opcode : UInt8) :
    decoder.Ignores .primary opcode ↔ OpcodeKey.isReserved (.primary opcode) = true := by
  constructor
  · intro h
    by_contra hreserved
    -- Two instructions in the slot would have to be decoded as the same one.
    have hdecode : ∀ name, ∃ instruction,
        decoder.decode [opcode] 0 none = .ok instruction ∧ instruction.mnemonic = name := by
      intro name
      have hread := readCode_put decoder.table decoder.config name (eq_false_of_ne_true hreserved)
      rw [← h (decoder.table.put .primary opcode (.instruction { mnemonic := name }))]
      · refine ⟨_, decode_eq_ok_iff.mpr ⟨_, hread, decoder.config.lengthLimit_pos, rfl⟩, ?_⟩
        unfold Reading.instruction Descriptor.mnemonicFor
        dsimp only
        split <;> rfl
      · intro other byte hne
        rw [Table.dispatch_put, if_neg (not_and_or.mpr hne)]
    obtain ⟨instruction, hfirst, hname⟩ := hdecode "first"
    obtain ⟨second, hsecond, hother⟩ := hdecode "second"
    rw [hfirst] at hsecond
    cases hsecond
    rw [hname] at hother
    contradiction
  · intro hreserved next hagree image start base
    refine decode_of_dispatch decoder.config fun key hkey => hagree _ _ ?_
    by_contra hsame
    obtain ⟨hmap, hopcode⟩ := not_or.mp hsame
    have hfree := hkey.isReserved
    obtain ⟨map, byte, extension⟩ := key
    obtain rfl : map = .primary := Classical.not_not.mp hmap
    obtain rfl : byte = opcode := Classical.not_not.mp hopcode
    rw [show OpcodeKey.isReserved ⟨.primary, byte, extension⟩ = true from hreserved] at hfree
    contradiction

end Decoder
end IA32
