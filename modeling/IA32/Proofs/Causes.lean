import IA32.Proofs.Acceptance

set_option autoImplicit false

namespace IA32.Decoder

/-- The code at `start` is no instruction, and the cause. -/
inductive Fails (decoder : Decoder) (image : List UInt8) (start : Nat) : DecodeCause → Prop where
  | outsideImage : image.length < start →
      Fails decoder image start (.outsideImage image.length)
  | unsupportedOpcode {key : OpcodeKey} :
      decoder.table.Unsupported ((image.drop start).dropWhile Prefix.isByte) key →
      Fails decoder image start (.unsupportedOpcode key)
  | invalidOperand {byte : ModeByte} {descriptor : Descriptor} {tail : List UInt8}
      {fault : OperandFault} :
      decoder.table.Reaches ((image.drop start).dropWhile Prefix.isByte) (some byte) descriptor tail →
      Misfit descriptor.operands byte fault →
      Fails decoder image start (.invalidOperand fault)
  | tooLong {word : List UInt8} :
      word <+: image.drop start → Encodes decoder.table decoder.config word →
      decoder.config.lengthLimit < word.length →
      Fails decoder image start (.tooLong decoder.config.lengthLimit)
  | truncated : start ≤ image.length →
      decoder.table.Lacks (decoder.config.sizes ((image.drop start).takeWhile Prefix.isByte))
        ((image.drop start).dropWhile Prefix.isByte) →
      Fails decoder image start (.truncated (image.length - start))

variable {decoder : Decoder} {image code : List UInt8} {start : Nat} {cause : DecodeCause}
  {reading : Reading}

/-- What is read in front of other code is a word of the grammar. -/
theorem readCode_size_iff (hsound : decoder.table.Sound) (size : Nat) :
    (∃ reading, decoder.readCode code = .ok reading ∧ reading.size = size) ↔
      ∃ word, word <+: code ∧ Encodes decoder.table decoder.config word ∧ word.length = size := by
  constructor
  · rintro ⟨reading, hread, rfl⟩
    obtain ⟨-, hsize, htake⟩ := readCode_take_size hread
    have hlen : (code.take reading.size).length = reading.size := List.length_take_of_le hsize
    exact ⟨_, List.take_prefix _ _, (readCode_whole_iff hsound).mp ⟨reading, htake, hlen.symm⟩, hlen⟩
  · rintro ⟨word, ⟨more, rfl⟩, hword, rfl⟩
    obtain ⟨reading, hread, hsize⟩ := (readCode_whole_iff hsound).mpr hword
    exact ⟨reading, readCode_append_of_ok hread more, hsize⟩

theorem start_le_of_dropWhile (h : (image.drop start).dropWhile Prefix.isByte ≠ []) :
    start ≤ image.length := by
  by_contra hstart
  rw [List.drop_of_length_le (by omega)] at h
  exact h rfl

theorem decode_of_fault {fault : Fault} (h : decoder.readBehind
      ((image.drop start).takeWhile Prefix.isByte) ((image.drop start).dropWhile Prefix.isByte) =
        .error (.fault fault)) (base : Option UInt64) :
    decoder.decode image start base = .error ⟨start, fault.cause⟩ := by
  have hstart : start ≤ image.length := by
    apply start_le_of_dropWhile
    intro hnil
    rw [hnil, readBehind_nil] at h
    cases h
  rw [decode_eq_place decoder hstart base, readCode, h]
  rfl

theorem Fails.decode_eq (hsound : decoder.table.Sound) (h : decoder.Fails image start cause)
    (base : Option UInt64) : decoder.decode image start base = .error ⟨start, cause⟩ := by
  cases h with
  | outsideImage hstart => exact decode_of_outside decoder hstart base
  | unsupportedOpcode hkey => exact decode_of_fault (readBehind_of_unsupported hsound hkey _) base
  | invalidOperand hreach hmisfit =>
    exact decode_of_fault (readBehind_of_misfit hsound hreach hmisfit _) base
  | @tooLong word hprefix hword hlimit =>
    obtain ⟨reading, hread, hsize⟩ :=
      (readCode_size_iff hsound word.length).mpr ⟨word, hprefix, hword, rfl⟩
    have hstart : start ≤ image.length := by
      have hlen := hprefix.length_le
      rw [List.length_drop] at hlen
      omega
    rw [decode_eq_place decoder hstart base, hread, place, if_pos (by omega)]
  | truncated hstart hlacks =>
    rw [decode_eq_place decoder hstart base, readCode, readBehind_of_lacks hsound hlacks, place,
      List.length_drop]

/-- Where there is no cause to fail there is an instruction. -/
theorem exists_decode_or_fails (hsound : decoder.table.Sound) (image : List UInt8) (start : Nat)
    (base : Option UInt64) :
    (∃ instruction, decoder.decode image start base = .ok instruction) ∨
      ∃ cause, decoder.Fails image start cause := by
  by_cases hstart : image.length < start
  · exact .inr ⟨_, .outsideImage hstart⟩
  have hinside := Nat.not_lt.mp hstart
  rcases Table.outcome_cases hsound
    (decoder.config.sizes ((image.drop start).takeWhile Prefix.isByte))
    (fun _ _ => PrefixState.isByte_of_dropWhile) with
    ⟨modeByte, descriptor, tail, hreach, hfits, henough⟩ |
      ⟨byte, descriptor, tail, fault, hreach, hmisfit⟩ | ⟨key, hunsupported⟩ | hlacks
  · obtain ⟨reading, hread, -⟩ := readBehind_of_enough hsound hreach hfits henough
    change decoder.readCode (image.drop start) = .ok reading at hread
    by_cases hlimit : reading.size ≤ decoder.config.lengthLimit
    · exact .inl ⟨_, decode_eq_ok_iff.mpr ⟨reading, hread, hlimit, rfl⟩⟩
    · obtain ⟨word, hprefix, hword, hlen⟩ :=
        (readCode_size_iff hsound reading.size).mp ⟨reading, hread, rfl⟩
      exact .inr ⟨_, .tooLong hprefix hword (by omega)⟩
  · exact .inr ⟨_, .invalidOperand hreach hmisfit⟩
  · exact .inr ⟨_, .unsupportedOpcode hunsupported⟩
  · exact .inr ⟨_, .truncated hinside hlacks⟩

/-- A decode fails with an error exactly if the error has the offset of the decode and a cause for which it
fails. -/
theorem decode_eq_error_iff (calls : List (OpcodeKey × Descriptor)) (config : Config)
    (image : List UInt8) (start : Nat) (base : Option UInt64) (error : DecodeError) :
    (Decoder.mk (.ofCalls calls) config).decode image start base = .error error ↔
      error.offset = start ∧ (Decoder.mk (.ofCalls calls) config).Fails image start error.cause := by
  have hsound : (Decoder.mk (.ofCalls calls) config).table.Sound := Table.sound_ofCalls calls
  constructor
  · intro h
    rcases exists_decode_or_fails hsound image start base with ⟨instruction, hok⟩ | ⟨cause, hfails⟩
    · rw [hok] at h
      contradiction
    · have herror := hfails.decode_eq hsound base
      rw [h] at herror
      obtain ⟨⟩ := herror
      exact ⟨rfl, hfails⟩
  · rintro ⟨rfl, hfails⟩
    exact hfails.decode_eq hsound base

end IA32.Decoder
