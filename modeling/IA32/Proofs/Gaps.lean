import IA32.Proofs.Finality
import IA32.Proofs.Refusals
import IA32.Proofs.Selection
import IA32.Table.Builtin

set_option autoImplicit false

namespace IA32

theorem Spells.unique {bytes others rest behind : List UInt8} {map other : OpcodeMap}
    {opcode byte : UInt8} (h : Spells bytes map opcode) (hother : Spells others other byte)
    (heq : bytes ++ rest = others ++ behind) : other = map ∧ byte = opcode ∧ behind = rest := by
  have hread := Table.readKey_run h rest
  rw [heq, Table.readKey_run hother behind] at hread
  simpa [and_assoc] using hread

namespace Table

variable {table next : Table} {code : List UInt8} {key other : OpcodeKey} {descriptor : Descriptor}

theorem Unsupported.exists_spells (h : table.Unsupported code key) :
    ∃ bytes rest, Spells bytes key.map key.opcode ∧ code = bytes ++ rest ∧
      ((key.extension = none ∧ ∀ extension, table.lookup ⟨key.map, key.opcode, extension⟩ = none) ∨
        ∃ byte more group, rest = byte :: more ∧
          key.extension = some (ModeByte.ofByte byte).reg.val ∧
          table.dispatch key.map key.opcode = some (.group group) ∧ table.lookup key = none) := by
  cases h with
  | @opcode bytes rest map opcode hspells hnone =>
    exact ⟨bytes, rest, hspells, rfl, .inl ⟨rfl, hnone⟩⟩
  | @member bytes rest map opcode byte place descriptor hspells hgroup hnone =>
    obtain ⟨group, hslot, -⟩ := dispatch_of_lookup_some hgroup
    exact ⟨bytes, byte :: rest, hspells, rfl, .inr ⟨byte, rest, group, rfl, rfl, hslot, hnone⟩⟩

theorem Unsupported.lookup_eq_none (h : table.Unsupported code key) : table.lookup key = none := by
  obtain ⟨bytes, rest, -, -, ⟨-, hnone⟩ | ⟨_, _, _, -, -, -, hnone⟩⟩ := h.exists_spells
  · exact hnone key.extension
  · exact hnone

/-- Nothing that is registered stands in the way of the key. -/
theorem Unsupported.not_clashes (h : table.Unsupported code key)
    (hheld : table.lookup other = some descriptor) : ¬ key.Clashes other := by
  rintro ⟨hmap, hopcode, hextension⟩
  obtain ⟨place, slot, extension⟩ := other
  obtain rfl : place = key.map := hmap
  obtain rfl : slot = key.opcode := hopcode
  obtain ⟨bytes, rest, -, -, ⟨-, hnone⟩ | ⟨byte, more, group, -, hkey, hslot, hnone⟩⟩ := h.exists_spells
  · rw [hnone extension] at hheld
    contradiction
  · rcases hextension with rfl | rfl | hwhole
    · rw [dispatch_of_lookup_none hheld] at hslot
      cases hslot
    · rw [show table.lookup ⟨key.map, key.opcode, key.extension⟩ = none from hnone] at hheld
      contradiction
    · rw [hkey] at hwhole
      contradiction

theorem Unsupported.exists_register (hsound : table.Sound) (h : table.Unsupported code key)
    (hdefect : descriptor.defect? = none) : ∃ next, table.register key descriptor = .ok next := by
  obtain ⟨bytes, rest, hspells, -, hkey⟩ := h.exists_spells
  refine (exists_register_iff hsound).mpr
    ⟨hdefect, key.exists_spells_iff.mp ⟨bytes, hspells⟩, fun place hplace => ?_, fun _ _ => h.not_clashes⟩
  rcases hkey with ⟨hwhole, -⟩ | ⟨byte, _, _, -, hmember, -, -⟩
  · rw [hwhole] at hplace
    contradiction
  · rw [hmember] at hplace
    obtain rfl := Option.some.inj hplace
    exact Nat.le_of_lt_succ (ModeByte.ofByte byte).reg.isLt

theorem Unsupported.not_of_lookup (h : table.Unsupported code key)
    (hnext : next.lookup key = some descriptor) : ¬ next.Unsupported code other := by
  intro hother
  obtain ⟨bytes, rest, hspells, hcode, hkey⟩ := h.exists_spells
  obtain ⟨others, behind, hspelled, hsame, hfree⟩ := hother.exists_spells
  obtain ⟨hmap, hopcode, rfl⟩ := hspells.unique hspelled (hcode.symm.trans hsame)
  obtain ⟨map, opcode, extension⟩ := key
  obtain ⟨_, _, place⟩ := other
  obtain rfl := hmap
  obtain rfl := hopcode
  rcases hfree with ⟨-, hnone⟩ | ⟨byte, more, group, rfl, hplace, hslot, hnone⟩
  · rw [hnone extension] at hnext
    contradiction
  · obtain rfl : place = some (ModeByte.ofByte byte).reg.val := hplace
    rcases hkey with ⟨hwhole, -⟩ | ⟨raw, _, _, hrest, hmember, -, -⟩
    · obtain rfl : extension = none := hwhole
      rw [dispatch_of_lookup_none hnext] at hslot
      cases hslot
    · obtain ⟨rfl, -⟩ := List.cons.inj hrest
      obtain rfl : extension = some (ModeByte.ofByte byte).reg.val := hmember
      rw [hnone] at hnext
      contradiction

end Table

theorem Decoder.unsupported_of_decode {decoder : Decoder} (hsound : decoder.table.Sound)
    {image : List UInt8} {start : Nat} {base : Option UInt64} {error : DecodeError} {key : OpcodeKey}
    (h : decoder.decode image start base = .error error)
    (hcause : error.cause = .unsupportedOpcode key) :
    decoder.table.Unsupported ((image.drop start).dropWhile Prefix.isByte) key := by
  obtain ⟨cause, rfl, hfails⟩ := exists_fails_of_decode hsound h
  obtain rfl : cause = .unsupportedOpcode key := hcause
  cases hfails with
  | unsupportedOpcode hkey => exact hkey

namespace Registry

/-- A decode that fails because of an opcode names a key that was never accepted and that every usable
descriptor can be registered under; behind that registration, whatever calls follow, the decode fails because
of an opcode no more. -/
theorem register_of_unsupported (calls : List (OpcodeKey × Descriptor)) (config : Config)
    {image : List UInt8} {start : Nat} {base : Option UInt64} {error : DecodeError} {key : OpcodeKey}
    (h : (Decoder.mk (ofCalls calls).table config).decode image start base = .error error)
    (hcause : error.cause = .unsupportedOpcode key) :
    (∀ descriptor, (key, descriptor) ∉ (ofCalls calls).accepted) ∧
      ∀ descriptor, descriptor.defect? = none →
        (Builder.register key descriptor).run (ofCalls calls).table =
            .ok () (ofCalls (calls ++ [(key, descriptor)])).table ∧
          ∀ more again other,
            (Decoder.mk (ofCalls (calls ++ [(key, descriptor)] ++ more)).table config).decode image start
                base = .error again →
              again.cause ≠ .unsupportedOpcode other := by
  have hconsistent := consistent_ofCalls calls
  have hgap : (ofCalls calls).table.Unsupported ((image.drop start).dropWhile Prefix.isByte) key :=
    Decoder.unsupported_of_decode hconsistent.sound h hcause
  refine ⟨fun descriptor haccepted => ?_, fun descriptor hdefect => ?_⟩
  · rw [← hconsistent.lookup_iff, hgap.lookup_eq_none] at haccepted
    contradiction
  · obtain ⟨next, hnext⟩ := hgap.exists_register hconsistent.sound hdefect
    have hcall : ofCalls (calls ++ [(key, descriptor)]) =
        ⟨next, (ofCalls calls).accepted ++ [(key, descriptor)]⟩ := by
      rw [ofCalls, List.foldl_append]
      exact call_of_ok hnext
    refine ⟨?_, fun more again other hagain hother => ?_⟩
    · rw [Builder.register_run, hnext, hcall]
    · have hlater := consistent_ofCalls (calls ++ [(key, descriptor)] ++ more)
      have hheld : (ofCalls (calls ++ [(key, descriptor)] ++ more)).table.lookup key =
          some descriptor := by
        -- What has been accepted stays accepted.
        rw [hlater.lookup_iff, ofCalls, List.foldl_append]
        have hkept := accepted_prefix_foldl (ofCalls (calls ++ [(key, descriptor)])) more
        exact hkept.subset (by simp [hcall])
      exact hgap.not_of_lookup hheld (Decoder.unsupported_of_decode hlater.sound hagain hother)

theorem register_of_unsupported_member :
    let calls := [Builtin.member 0x81 0 (Builtin.general "add" [Builtin.Ev, Builtin.Iv])]
    let missing := Builtin.member 0x81 7 (Builtin.general "cmp" [Builtin.Ev, Builtin.Iv])
    (Decoder.mk (ofCalls calls).table {}).decode [0x66, 0x81, 0xF8] 0 none =
        .error ⟨0, .unsupportedOpcode missing.1⟩ ∧
      missing.2.defect? = none ∧
      (Builder.register missing.1 missing.2).run (ofCalls calls).table =
        .ok () (ofCalls (calls ++ [missing])).table ∧
      ∀ more again other,
        (Decoder.mk (ofCalls (calls ++ [missing] ++ more)).table {}).decode [0x66, 0x81, 0xF8] 0 none =
            .error again →
          again.cause ≠ .unsupportedOpcode other := by
  intro calls missing
  have h : (Decoder.mk (ofCalls calls).table {}).decode [0x66, 0x81, 0xF8] 0 none =
      .error ⟨0, .unsupportedOpcode missing.1⟩ := by decide +kernel
  have hdefect : missing.2.defect? = none := by decide
  have hmissing := (register_of_unsupported calls {} h rfl).2 missing.2 hdefect
  exact ⟨h, hdefect, hmissing.1, hmissing.2⟩

end Registry
end IA32
