import IA32.Proofs.Completion
import IA32.Proofs.Refusals

set_option autoImplicit false

namespace IA32

namespace Table

theorem isReserved_of_lookup (calls : List (OpcodeKey × Descriptor)) :
    ∀ key descriptor, (ofCalls calls).lookup key = some descriptor → key.isReserved = false := by
  refine ofCalls_induction (motive := fun table => ∀ key descriptor,
    table.lookup key = some descriptor → key.isReserved = false) ?_ ?_ calls
  · intro key descriptor hlookup
    rw [lookup_empty] at hlookup
    contradiction
  · intro table next added held hkept hregister key descriptor hlookup
    rw [lookup_register hregister] at hlookup
    split at hlookup
    · next hkey =>
      obtain ⟨-, hreserved, -⟩ := register_eq_ok_iff.mp hregister
      rwa [hkey]
    · exact hkept key descriptor hlookup

end Table

namespace Decoder

variable {decoder : Decoder} {image code tail : List UInt8} {start : Nat} {base : Option UInt64}
  {selection : Selection} {instruction : Instruction}

theorem size_of_locates (hsound : decoder.table.Sound) {reading : Reading}
    (h : decoder.readCode code = .ok reading)
    (hfound : decoder.table.Locates (code.dropWhile Prefix.isByte) selection tail) :
    reading.size = (code.takeWhile Prefix.isByte).length +
      selection.key.headLength selection.descriptor +
      (decoder.config.sizes (code.takeWhile Prefix.isByte)).tailLength selection.descriptor.operands
        selection.modeByte tail.head? := by
  have hreach := hfound.reaches
  have hlen := hfound.length_eq
  unfold readCode at h
  have hfits : Fits selection.descriptor.operands selection.modeByte := by
    intro byte fault hbyte hmisfit
    rw [hbyte] at hreach
    rw [readBehind_of_misfit hsound hreach hmisfit] at h
    contradiction
  by_cases hshort : tail.length < (decoder.config.sizes (code.takeWhile Prefix.isByte)).tailLength
      selection.descriptor.operands selection.modeByte tail.head?
  · rw [readBehind_of_short hsound hreach hfits hshort] at h
    contradiction
  · obtain ⟨found, hread, hsize⟩ := readBehind_of_enough hsound hreach hfits (Nat.not_lt.mp hshort)
    rw [h] at hread
    cases hread
    omega

/-- The shortest code under a key: opcode, mode byte, and fields of zeros. -/
theorem exists_finds_of_lookup (hsound : decoder.table.Sound) {key : OpcodeKey} {descriptor : Descriptor}
    (hreserved : key.isReserved = false) (h : decoder.table.lookup key = some descriptor) :
    ∃ image reading, image.length =
        key.headLength descriptor + (decoder.config.sizes []).fieldsLength descriptor.operands ∧
      decoder.Finds image 0 key descriptor ∧ decoder.readCode image = .ok reading ∧
      reading.size = image.length := by
  obtain ⟨bytes, hspells⟩ := key.exists_spells_iff.mpr hreserved
  obtain ⟨byte, hgrants, hfits, htail⟩ := Table.exists_grants hsound h
  generalize hzeros : List.replicate ((decoder.config.sizes []).fieldsLength descriptor.operands)
    (0 : UInt8) = zeros
  have hcount : zeros.length = (decoder.config.sizes []).fieldsLength descriptor.operands := by
    rw [← hzeros, List.length_replicate]
  generalize himage : bytes ++ (byte.toList ++ zeros) = image
  obtain ⟨htake, hdrop⟩ :
      image.takeWhile Prefix.isByte = [] ∧ image.dropWhile Prefix.isByte = image := by
    obtain ⟨first, rest, rfl, hfirst⟩ := hspells.exists_cons
    rw [← himage, List.cons_append]
    simp [hfirst]
  have hfound : decoder.table.Locates (image.dropWhile Prefix.isByte)
      ⟨key, descriptor, byte.map .ofByte⟩ zeros := by
    rw [hdrop]
    exact ⟨bytes, byte, hspells, hgrants, rfl, himage.symm⟩
  have henough : (decoder.config.sizes (image.takeWhile Prefix.isByte)).tailLength descriptor.operands
      (byte.map .ofByte) zeros.head? ≤ zeros.length := by rw [htake, htail, hcount]
  obtain ⟨reading, hread, -⟩ := readBehind_of_enough hsound hfound.reaches hfits henough
  have hlen := hfound.length_eq
  have hsize := size_of_locates hsound hread hfound
  rw [hdrop, hcount] at hlen
  rw [htake, htail, List.length_nil, Nat.zero_add] at hsize
  exact ⟨image, reading, hlen, finds_iff.mpr ⟨_, _, hfound⟩, hread, hsize.trans hlen.symm⟩

theorem exists_decode_of_lookup (hsound : decoder.table.Sound) (hbound : 15 ≤ decoder.config.lengthBound)
    {key : OpcodeKey} {descriptor : Descriptor} (hreserved : key.isReserved = false)
    (h : decoder.table.lookup key = some descriptor) :
    ∃ image : List UInt8, image.length ≤ 15 ∧ decoder.Finds image 0 key descriptor ∧
      ∀ base, ∃ instruction, decoder.decode image 0 base = .ok instruction ∧
        instruction.encoding = image := by
  obtain ⟨image, reading, hlen, hfinds, hread, hsize⟩ := exists_finds_of_lookup hsound hreserved h
  have hhead := key.headLength_le descriptor
  have hoperands := Descriptor.length_operands_le (hsound.defect _ _ h)
  have hfields := ((decoder.config.sizes []).fieldsLength_le descriptor.operands).trans
    (Sizes.widest_fieldsLength_le descriptor.operands)
  have hlimit : decoder.config.lengthLimit = 15 := by
    unfold Config.lengthLimit maxInstructionLength
    omega
  unfold Descriptor.maxOperands at hoperands
  refine ⟨image, by omega, hfinds, fun base => ?_⟩
  refine ⟨_, decode_eq_ok_iff.mpr ⟨reading, hread, by omega, rfl⟩, ?_⟩
  change (image.drop 0).take reading.size = image
  rw [hsize, List.drop_zero, List.take_length]

/-- Two bytes of opcode, a mode byte and three fields of four bytes leave no room for a prefix. -/
theorem size_of_finds_full (hsound : decoder.table.Sound) {opcode : UInt8} {extension : Nat}
    {descriptor : Descriptor}
    (hfinds : decoder.Finds image start ⟨.secondary, opcode, some extension⟩ descriptor)
    (h : decoder.decode image start base = .ok instruction)
    (hfull : descriptor.operands.map (decoder.config.sizes
      ((image.drop start).takeWhile Prefix.isByte)).fieldLength = [4, 4, 4]) :
    instruction.size = 15 := by
  obtain ⟨modeByte, tail, hfound⟩ := finds_iff.mp hfinds
  obtain ⟨reading, hread, hlimit, rfl⟩ := decode_eq_ok_iff.mp h
  obtain ⟨-, hinside, -⟩ := readCode_take_size hread
  have hsize := size_of_locates hsound hread hfound
  have hhead : OpcodeKey.headLength ⟨.secondary, opcode, some extension⟩ descriptor = 3 := rfl
  have hfields := Sizes.foldr_map_fieldLength
    (decoder.config.sizes ((image.drop start).takeWhile Prefix.isByte)) descriptor.operands
  rw [hfull] at hfields
  simp only [List.foldr_cons, List.foldr_nil] at hfields
  have hmost := decoder.config.lengthLimit_le
  rw [Reading.size_instruction hinside]
  unfold Sizes.tailLength at hsize
  unfold maxInstructionLength at hmost
  dsimp only at hsize
  omega

end Decoder

theorem Builder.register_run_eq_reserved_iff (table : Table) {key : OpcodeKey} {descriptor : Descriptor}
    (h : descriptor.defect? = none) :
    (register key descriptor).run table = .error (.reserved key) table ↔ key.isReserved = true := by
  have hiff : table.register key descriptor = .error (.reserved key) ↔ key.isReserved = true :=
    Table.register_eq_reserved_iff h
  rw [← hiff, register_run]
  cases table.register key descriptor with
  | ok next => simp
  | error error => simp

namespace Registry

/-- With room for fifteen bytes, each registration that was accepted is what some code of at most fifteen
bytes decodes to. The primary bytes refused as reserved are the ones that no code makes a decode look up, and
whose slots would make no difference to any decode. -/
theorem exists_decode_of_accepted (calls : List (OpcodeKey × Descriptor)) (config : Config) :
    (15 ≤ config.lengthBound → ∀ entry ∈ (ofCalls calls).accepted,
      ∃ image : List UInt8, image.length ≤ 15 ∧
        (Decoder.mk (ofCalls calls).table config).Finds image 0 entry.1 entry.2 ∧
        ∀ base, ∃ instruction,
          (Decoder.mk (ofCalls calls).table config).decode image 0 base = .ok instruction ∧
            instruction.encoding = image) ∧
      (∀ image start base opcode extension descriptor instruction,
        (Decoder.mk (ofCalls calls).table config).Finds image start
          ⟨.secondary, opcode, some extension⟩ descriptor →
        (Decoder.mk (ofCalls calls).table config).decode image start base = .ok instruction →
        descriptor.operands.map
          (config.sizes ((image.drop start).takeWhile Prefix.isByte)).fieldLength = [4, 4, 4] →
        instruction.size = 15) ∧
      (∀ image start key, LooksUp image start key →
        ¬ (key.map = .primary ∧ (key.opcode = escapeByte ∨ Prefix.isByte key.opcode = true))) ∧
      ∀ opcode extension descriptor, descriptor.defect? = none →
        ((Builder.register ⟨.primary, opcode, extension⟩ descriptor).run (ofCalls calls).table =
            .error (.reserved ⟨.primary, opcode, extension⟩) (ofCalls calls).table ↔
          ∀ image start, ¬ LooksUp image start (.primary opcode)) ∧
        ((∀ image start, ¬ LooksUp image start (.primary opcode)) ↔
          (Decoder.mk (ofCalls calls).table config).Ignores .primary opcode) := by
  have h := consistent_ofCalls calls
  refine ⟨fun hbound entry hentry => ?_, fun _ _ _ _ _ _ _ => Decoder.size_of_finds_full h.sound,
    fun image start key hkey => ?_, fun opcode extension descriptor hdefect => ?_⟩
  · have hlookup := (h.lookup_iff _ _).mpr hentry
    have hreserved := Table.isReserved_of_lookup calls entry.1 entry.2 (table_ofCalls calls ▸ hlookup)
    exact Decoder.exists_decode_of_lookup h.sound hbound hreserved hlookup
  · rw [← OpcodeKey.isReserved_iff, hkey.isReserved]
    simp
  · have hlooks := forall_not_looksUp_iff .primary opcode
    have hignores := (Decoder.mk (ofCalls calls).table config).ignores_primary_iff opcode
    exact ⟨(Builder.register_run_eq_reserved_iff _ hdefect).trans hlooks.symm,
      hlooks.trans hignores.symm⟩

def wide : OpcodeKey × Descriptor :=
  (⟨.secondary, 0x38, some 7⟩, Builtin.general "wide"
    [⟨.immediate, .dword⟩, ⟨.immediate, .dword⟩, ⟨.immediate, .dword⟩])

theorem exists_decode_of_accepted_wide :
    15 ≤ Config.lengthBound { codeSize := .bits16 } ∧ wide ∈ (ofCalls [wide]).accepted ∧
      ∃ image instruction,
        (Decoder.mk (ofCalls [wide]).table { codeSize := .bits16 }).decode image 0 none =
            .ok instruction ∧
          instruction.encoding = image ∧ image.length = 15 := by
  have haccepted : wide ∈ (ofCalls [wide]).accepted := by decide +kernel
  obtain ⟨hlive, hfull, -⟩ := exists_decode_of_accepted [wide] { codeSize := .bits16 }
  obtain ⟨image, -, hfinds, hdecode⟩ := hlive (Nat.le_refl 15) wide haccepted
  obtain ⟨instruction, hok, hencoding⟩ := hdecode none
  refine ⟨Nat.le_refl 15, haccepted, image, instruction, hok, hencoding, ?_⟩
  rw [← hencoding]
  exact hfull image 0 none 0x38 7 _ instruction hfinds hok rfl

end Registry
end IA32
