import Mathlib.Data.List.SplitLengths
import IA32.Proofs.Outcome

set_option autoImplicit false

namespace IA32

theorem Spells.exists_cons {bytes : List UInt8} {map : OpcodeMap} {opcode : UInt8}
    (h : Spells bytes map opcode) :
    ∃ byte rest, bytes = byte :: rest ∧ Prefix.isByte byte = false := by
  cases h with
  | primary hbyte hescape => exact ⟨opcode, [], rfl, hbyte⟩
  | secondary => exact ⟨escapeByte, [opcode], rfl, rfl⟩

theorem Decoder.readCode_of_spells {decoder : Decoder} {run bytes : List UInt8} {map : OpcodeMap}
    {opcode : UInt8} (hrun : ∀ byte ∈ run, Prefix.isByte byte = true) (h : Spells bytes map opcode)
    (rest : List UInt8) :
    decoder.readCode (run ++ (bytes ++ rest)) = decoder.readBehind run (bytes ++ rest) := by
  obtain ⟨byte, more, rfl, hbyte⟩ := h.exists_cons
  exact readCode_run_append hrun hbyte (more ++ rest)

theorem Spells.dropWhile_run_append {run bytes : List UInt8} {map : OpcodeMap} {opcode : UInt8}
    (h : Spells bytes map opcode) (hrun : ∀ byte ∈ run, Prefix.isByte byte = true) (rest : List UInt8) :
    (run ++ (bytes ++ rest)).dropWhile Prefix.isByte = bytes ++ rest := by
  obtain ⟨first, more, rfl, hfirst⟩ := h.exists_cons
  exact (PrefixState.takeWhile_run_append hrun hfirst (more ++ rest)).2

namespace Sizes

variable {specs : List OperandSpec} {modeByte : Option ModeByte}

theorem foldr_fieldLength (sizes : Sizes) (specs : List OperandSpec) :
    ((specs.filter (·.mode.isField)).map sizes.fieldLength).foldr (· + ·) 0 =
      sizes.fieldsLength specs := by
  induction specs with
  | nil => rfl
  | cons spec specs ih =>
    change _ = sizes.fieldLength spec + sizes.fieldsLength specs
    by_cases hfield : spec.mode.isField = true
    · rw [List.filter_cons, if_pos hfield, List.map_cons, List.foldr_cons, ih]
    · rw [List.filter_cons, if_neg hfield, ih, fieldLength_of_not (eq_false_of_ne_true hfield),
        Nat.zero_add]

theorem tailLength_eq (sizes : Sizes) {scaleByte : Option UInt8}
    (h : scaleByte.isSome = (rmByte specs modeByte).any (·.hasScaleByte sizes.address))
    (rest : List UInt8) :
    sizes.tailLength specs modeByte (scaleByte.toList ++ rest).head? =
      scaleByte.toList.length +
        (rmByte specs modeByte).elim 0
          (·.displacementLength sizes.address (scaleByte.map ScaleByte.ofByte)) +
        sizes.fieldsLength specs := by
  unfold tailLength
  cases hrm : rmByte specs modeByte with
  | none =>
    rw [hrm] at h
    obtain rfl : scaleByte = none := by simpa using h
    rfl
  | some byte =>
    rw [hrm] at h
    cases scaleByte with
    | none =>
      rw [Option.elim_some, ModeByte.addressLength_of_not h.symm]
      simp
    | some scale =>
      have haddress : byte.addressLength sizes.address (some scale) =
          1 + byte.displacementLength sizes.address (some (.ofByte scale)) := if_pos h.symm
      simp [haddress]

theorem exists_scaleByte (sizes : Sizes) {tail : List UInt8}
    (h : sizes.tailLength specs modeByte tail.head? ≤ tail.length) :
    ∃ (scaleByte : Option UInt8) (rest : List UInt8), tail = scaleByte.toList ++ rest ∧
      scaleByte.isSome = (rmByte specs modeByte).any (·.hasScaleByte sizes.address) := by
  cases hscale : (rmByte specs modeByte).any (·.hasScaleByte sizes.address) with
  | false => exact ⟨none, tail, rfl, rfl⟩
  | true =>
    obtain ⟨byte, hrm, hbyte⟩ := (Option.any_eq_true _ _).mp hscale
    cases tail with
    | nil =>
      unfold tailLength at h
      rw [hrm, Option.elim_some, ModeByte.addressLength, if_pos hbyte, List.length_nil] at h
      omega
    | cons scale rest => exact ⟨some scale, rest, rfl, rfl⟩

end Sizes

namespace Encoding

variable {encoding : Encoding} {table : Table} {config : Config} {map : OpcodeMap} {opcode : UInt8}
  {descriptor : Descriptor}

theorem Valid.length_tail (h : encoding.Valid table config map opcode descriptor) :
    encoding.tail.length = (config.sizes encoding.run).tailLength descriptor.operands
      (encoding.modeByte.map ModeByte.ofByte) encoding.tail.head? := by
  have hfields : encoding.fields.flatten.length =
      (config.sizes encoding.run).fieldsLength descriptor.operands := by
    rw [List.length_flatten, h.fields, List.sum_eq_foldr, Sizes.foldr_fieldLength]
  have hlen := (config.sizes encoding.run).tailLength_eq h.scaleByte
    (encoding.displacement ++ encoding.fields.flatten)
  rw [← h.displacement, ← hfields, ← List.append_assoc] at hlen
  unfold tail
  rw [hlen, List.length_append, List.length_append]

theorem Valid.reaches (h : encoding.Valid table config map opcode descriptor) :
    table.Reaches (encoding.opcode ++ (encoding.modeByte.toList ++ encoding.tail))
      (encoding.modeByte.map ModeByte.ofByte) descriptor encoding.tail :=
  ⟨encoding.opcode, map, opcode, encoding.modeByte, h.spells, rfl, h.selects, rfl⟩

end Encoding

/-- A tail of the length that its operands take splits into the parts of an encoding. -/
theorem encodes_of_reaches {table : Table} {config : Config} {run code tail : List UInt8}
    {modeByte : Option ModeByte} {descriptor : Descriptor}
    (hrun : ∀ byte ∈ run, Prefix.isByte byte = true)
    (hreach : table.Reaches code modeByte descriptor tail) (hfits : Fits descriptor.operands modeByte)
    (hlen : tail.length =
      (config.sizes run).tailLength descriptor.operands modeByte tail.head?) :
    Encodes table config (run ++ code) := by
  obtain ⟨bytes, map, opcode, byte, hspells, rfl, hselects, rfl⟩ := hreach
  obtain ⟨scaleByte, rest, rfl, hscale⟩ :=
    (config.sizes run).exists_scaleByte (Nat.le_of_eq hlen.symm)
  rw [(config.sizes run).tailLength_eq hscale, List.length_append] at hlen
  generalize hcount : (rmByte descriptor.operands (byte.map ModeByte.ofByte)).elim 0
    (·.displacementLength (config.sizes run).address (scaleByte.map ScaleByte.ofByte)) = count at hlen
  let lengths := (descriptor.operands.filter (·.mode.isField)).map (config.sizes run).fieldLength
  have hsum : lengths.sum = (rest.drop count).length := by
    rw [List.length_drop, List.sum_eq_foldr, Sizes.foldr_fieldLength]
    omega
  refine ⟨⟨run, bytes, byte, scaleByte, rest.take count, lengths.splitLengths (rest.drop count)⟩,
    map, opcode, descriptor, ?_, ?_⟩
  · unfold Encoding.bytes Encoding.tail
    simp only [List.flatten_splitLengths _ _ (Nat.le_of_eq hsum.symm), List.append_assoc,
      List.take_append_drop]
  · refine ⟨hrun, hspells, hselects, hfits, hscale, ?_, ?_⟩
    · rw [hcount, List.length_take_of_le (by omega)]
    · exact List.map_splitLengths_length _ _ (Nat.le_of_eq hsum)

namespace Decoder

variable {decoder : Decoder} {code : List UInt8} {reading : Reading}

/-- Code is read to its last byte exactly if the grammar spells it. -/
theorem readCode_whole_iff (hsound : decoder.table.Sound) :
    (∃ reading, decoder.readCode code = .ok reading ∧ reading.size = code.length) ↔
      Encodes decoder.table decoder.config code := by
  constructor
  · rintro ⟨reading, hread, hsize⟩
    have hcode := List.takeWhile_append_dropWhile (p := Prefix.isByte) (l := code)
    have hlen := PrefixState.length_takeWhile_add_dropWhile code
    have hrun : ∀ byte ∈ code.takeWhile Prefix.isByte, Prefix.isByte byte = true :=
      fun _ => PrefixState.isByte_of_mem_takeWhile
    rw [readCode] at hread
    -- Code that was read holds an instruction, and its tail is as long as the operands because nothing of
    -- the code is left.
    rcases Table.outcome_cases hsound (decoder.config.sizes (code.takeWhile Prefix.isByte))
      (fun _ _ => PrefixState.isByte_of_dropWhile) with
      ⟨modeByte, descriptor, tail, hreach, hfits, henough⟩ |
        ⟨byte, descriptor, tail, fault, hreach, hmisfit⟩ | ⟨key, hunsupported⟩ | hlacks
    · obtain ⟨least, hleast, htotal⟩ := readBehind_of_enough hsound hreach hfits henough
      obtain rfl : reading = least := Except.ok.inj (hread.symm.trans hleast)
      rw [← hcode]
      exact encodes_of_reaches hrun hreach hfits (by omega)
    · rw [readBehind_of_misfit hsound hreach hmisfit] at hread
      contradiction
    · rw [readBehind_of_unsupported hsound hunsupported] at hread
      contradiction
    · rw [readBehind_of_lacks hsound hlacks] at hread
      contradiction
  · rintro ⟨encoding, map, opcode, descriptor, rfl, hvalid⟩
    have hlen := hvalid.length_tail
    obtain ⟨reading, hread, htotal⟩ :=
      readBehind_of_enough hsound hvalid.reaches hvalid.fits (Nat.le_of_eq hlen.symm)
    refine ⟨reading, ?_, ?_⟩
    · unfold Encoding.bytes
      rw [List.append_assoc, List.append_assoc, readCode_of_spells hvalid.run hvalid.spells]
      exact hread
    · unfold Encoding.bytes
      simp only [List.length_append] at htotal ⊢
      omega

end Decoder
end IA32
