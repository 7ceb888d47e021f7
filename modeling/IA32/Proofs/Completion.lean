import IA32.Proofs.Selection

set_option autoImplicit false

/-!
# Completion

Code that ends inside an instruction can be completed to one: a mode byte that the operands accept is found
for every descriptor, and zeros do for the bytes behind it. The instruction is a word of the grammar but may
exceed the limit on its length, which is compared only with what has been read. A decode says that the code
is truncated also where the prefixes alone take up the limit and nothing can follow them.
-/
namespace IA32

namespace Sizes

theorem tailLength_append_zeros (sizes : Sizes) (specs : List OperandSpec)
    (modeByte : Option ModeByte) (tail : List UInt8) (count : Nat) :
    sizes.tailLength specs modeByte (tail ++ List.replicate count 0).head? =
      sizes.tailLength specs modeByte tail.head? := by
  rcases tail with _ | ⟨byte, tail⟩
  · cases count with
    | zero => rfl
    | succ count =>
      unfold tailLength
      cases rmByte specs modeByte with
      | none => rfl
      | some byte =>
        simp only [List.nil_append, List.replicate_succ, List.head?_cons, List.head?_nil,
          Option.elim_some, ModeByte.addressLength, Option.map_some, Option.map_none,
          byte.displacementLength_zero]
  · rfl

end Sizes

theorem eq_of_countP_le_one {α : Type} {p : α → Bool} {items : List α} {first second : α}
    (h : items.countP p ≤ 1) (hfirst : first ∈ items) (hsecond : second ∈ items)
    (hp : p first = true) (hq : p second = true) : first = second := by
  rw [List.countP_eq_length_filter] at h
  have hleft := List.mem_filter.mpr ⟨hfirst, hp⟩
  have hright := List.mem_filter.mpr ⟨hsecond, hq⟩
  obtain ⟨only, honly⟩ := List.length_eq_one_iff.mp (Nat.le_antisymm h (List.length_pos_of_mem hleft))
  rw [honly] at hleft hright
  rw [List.mem_singleton.mp hleft, List.mem_singleton.mp hright]

theorem ModeByte.addressLength_of_rm {byte : ModeByte} (hmode : byte.mode = .withoutDisplacement)
    (hrm : byte.rm.val = 0) (address : Width) (next : Option UInt8) :
    byte.addressLength address next = 0 := by
  have hscale : byte.hasScaleByte address = false := by simp [hasScaleByte, hrm]
  have hbase : byte.isBaseless address none = false := by cases address <;> simp [isBaseless, hrm]
  rw [addressLength_of_not hscale, displacementLength, hmode, hbase]
  rfl

/-- Every group member has a mode byte that its operands accept and no address follows: a place in memory
if one of them requires it, and else a register. -/
theorem exists_fits {specs : List OperandSpec} (h : specs.countP (·.mode.usesRm) ≤ 1) {extension : Nat}
    (hextension : extension < 8) :
    ∃ byte : UInt8, (ModeByte.ofByte byte).reg.val = extension ∧ Fits specs (some (.ofByte byte)) ∧
      ∀ address next, (ModeByte.ofByte byte).addressLength address next = 0 := by
  have hmemory : ∀ place : Fin 8, (ModeByte.ofByte (.ofNat (8 * place.val))).reg.val = place.val ∧
      (ModeByte.ofByte (.ofNat (8 * place.val))).mode = .withoutDisplacement ∧
      (ModeByte.ofByte (.ofNat (8 * place.val))).rm.val = 0 := by decide
  have hregister : ∀ place : Fin 8, (ModeByte.ofByte (.ofNat (0xC0 + 8 * place.val))).reg.val = place.val ∧
      (ModeByte.ofByte (.ofNat (0xC0 + 8 * place.val))).mode = .register := by decide
  by_cases hspec : ∃ type, ⟨.rm .memoryOnly, type⟩ ∈ specs
  · obtain ⟨type, hspec⟩ := hspec
    obtain ⟨hreg, hmode, hrm⟩ := hmemory ⟨extension, hextension⟩
    refine ⟨_, hreg, ?_, ModeByte.addressLength_of_rm hmode hrm⟩
    rintro _ _ ⟨⟩ (⟨hother, -⟩ | ⟨-, hother⟩)
    · rw [hmode] at hother
      contradiction
    · have := eq_of_countP_le_one h hspec hother rfl rfl
      simp at this
  · obtain ⟨hreg, hmode⟩ := hregister ⟨extension, hextension⟩
    refine ⟨_, hreg, ?_, ModeByte.addressLength_register hmode⟩
    rintro _ _ ⟨⟩ (⟨-, hother⟩ | ⟨hother, -⟩)
    · exact hspec ⟨_, hother⟩
    · exact hother hmode

namespace Table

def Spans (table : Table) (sizes : Sizes) (code : List UInt8) : Prop :=
  ∃ modeByte descriptor tail, table.Reaches code modeByte descriptor tail ∧
    Fits descriptor.operands modeByte ∧
    tail.length = sizes.tailLength descriptor.operands modeByte tail.head?

variable {table : Table} {sizes : Sizes} {map : OpcodeMap} {opcode : UInt8} {extension : Option Nat}
  {descriptor : Descriptor} {modeByte : Option ModeByte} {bytes code tail : List UInt8}

theorem Spans.encodes {config : Config} {run : List UInt8}
    (hrun : ∀ byte ∈ run, Prefix.isByte byte = true) (h : table.Spans (config.sizes run) code) :
    Encodes table config (run ++ code) := by
  obtain ⟨modeByte, descriptor, tail, hreach, hfits, hlen⟩ := h
  exact encodes_of_reaches hrun hreach hfits hlen

theorem exists_spans_of_reaches (hreach : table.Reaches code modeByte descriptor tail)
    (hfits : Fits descriptor.operands modeByte)
    (hlen : tail.length ≤ sizes.tailLength descriptor.operands modeByte tail.head?) :
    ∃ more, table.Spans sizes (code ++ more) := by
  obtain ⟨bytes, map, opcode, byte, hspells, hbyte, hselects, rfl⟩ := hreach
  -- A scale byte of zero among them asks for no displacement that the length does not count already.
  let zeros : List UInt8 := List.replicate
    (sizes.tailLength descriptor.operands modeByte tail.head? - tail.length) 0
  refine ⟨zeros, modeByte, descriptor, tail ++ zeros, ?_, hfits, ?_⟩
  · exact ⟨bytes, map, opcode, byte, hspells, hbyte, hselects, by simp⟩
  · rw [sizes.tailLength_append_zeros, List.length_append, List.length_replicate]
    omega

/-- Whatever a table has under a key is granted for some mode byte, or for none, that leaves only the fields
to follow. -/
theorem exists_grants {key : OpcodeKey} (hsound : table.Sound) (h : table.lookup key = some descriptor) :
    ∃ byte : Option UInt8, table.Grants ⟨key, descriptor, byte.map .ofByte⟩ ∧
      Fits descriptor.operands (byte.map .ofByte) ∧ ∀ (sizes : Sizes) (next : Option UInt8),
        sizes.tailLength descriptor.operands (byte.map .ofByte) next =
          sizes.fieldsLength descriptor.operands := by
  obtain ⟨map, opcode, extension⟩ := key
  have hone := Descriptor.countP_usesRm_le (hsound.defect _ _ h)
  have hfields : ∀ byte : ModeByte, (∀ address next, byte.addressLength address next = 0) →
      ∀ (sizes : Sizes) (next : Option UInt8), sizes.tailLength descriptor.operands (some byte) next =
        sizes.fieldsLength descriptor.operands := by
    intro byte hnone sizes next
    unfold Sizes.tailLength rmByte
    split <;> simp [hnone]
  cases extension with
  | none =>
    cases hneeds : descriptor.needsModeByte with
    | false =>
      refine ⟨none, .plain h hneeds, fun _ _ hnone => (nomatch hnone), fun sizes next => ?_⟩
      simp [Sizes.tailLength, rmByte]
    | true =>
      obtain ⟨byte, -, hfits, haddress⟩ := exists_fits hone (Nat.zero_lt_succ 7)
      exact ⟨some byte, .withModeByte h hneeds, hfits, hfields _ haddress⟩
  | some place =>
    have hplace : place < 8 := by
      obtain ⟨group, -, hmember⟩ := dispatch_of_lookup_some h
      by_contra hle
      rw [Group.member_of_le (Nat.not_lt.mp hle)] at hmember
      contradiction
    obtain ⟨byte, rfl, hfits, haddress⟩ := exists_fits hone hplace
    exact ⟨some byte, .member h, hfits, hfields _ haddress⟩

theorem exists_spans_of_lookup (hsound : table.Sound) (hspells : Spells bytes map opcode)
    (h : table.lookup ⟨map, opcode, extension⟩ = some descriptor) :
    ∃ more, table.Spans sizes (bytes ++ more) := by
  obtain ⟨byte, hgrants, hfits, -⟩ := exists_grants hsound h
  have hreach : table.Reaches (bytes ++ byte.toList) (byte.map .ofByte) descriptor [] :=
    ⟨bytes, map, opcode, byte, hspells, rfl, hgrants.selects, by rw [List.append_nil]⟩
  obtain ⟨more, hmore⟩ := exists_spans_of_reaches hreach hfits (Nat.zero_le _)
  rw [List.append_assoc] at hmore
  exact ⟨_, hmore⟩

/-- With an instruction in the secondary map, code that ends too early is always the beginning of an
instruction. -/
theorem Lacks.exists_spans (hsound : table.Sound)
    (hsecondary : table.lookup ⟨.secondary, opcode, extension⟩ = some descriptor)
    (h : table.Lacks sizes code) : ∃ more, table.Spans sizes (code ++ more) := by
  obtain ⟨more, hmore⟩ : ∃ more, table.Spans sizes ([escapeByte, opcode] ++ more) :=
    exists_spans_of_lookup hsound .secondary hsecondary
  cases h with
  | opcode => exact ⟨_, hmore⟩
  | secondOpcode => exact ⟨opcode :: more, hmore⟩
  | modeByte hspells htakes =>
    rcases htakes with ⟨held, hheld, -⟩ | ⟨place, held, hheld⟩
    · exact exists_spans_of_lookup hsound hspells hheld
    · exact exists_spans_of_lookup hsound hspells hheld
  | operands hreach hfits hshort => exact exists_spans_of_reaches hreach hfits (Nat.le_of_lt hshort)

theorem Spans.length_le (h : table.Spans sizes code) : ∃ key descriptor,
    table.lookup key = some descriptor ∧ code.length ≤ key.longest descriptor := by
  obtain ⟨modeByte, descriptor, tail, hreach, -, htail⟩ := h
  obtain ⟨key, hlookup, hlen⟩ := hreach.length_le (Nat.le_of_eq htail)
  exact ⟨key, descriptor, hlookup, hlen⟩

theorem secondary_mem_registrations :
    (.secondary 0x31, Builtin.general "rdtsc" []) ∈ Builtin.registrations := by
  unfold Builtin.registrations
  exact List.mem_append_right _ (by decide)

end Table

namespace Decoder

variable {decoder : Decoder} {image : List UInt8} {start : Nat} {base : Option UInt64}
  {instruction : Instruction}

theorem decode_ne_ok_of_run
    (h : decoder.config.lengthLimit ≤ ((image.drop start).takeWhile Prefix.isByte).length)
    (suffix : List UInt8) : decoder.decode (image ++ suffix) start base ≠ .ok instruction := by
  intro hdecode
  obtain ⟨reading, hread, hlimit, -⟩ := decode_eq_ok_iff.mp hdecode
  obtain ⟨byte, used, more, -, hsize, -⟩ := readBehind_used hread
  have hpos := decoder.config.lengthLimit_pos
  have hstart : start ≤ image.length := by
    by_contra hstart
    rw [List.drop_of_length_le (by omega)] at h
    exact absurd hpos (Nat.not_lt.mpr h)
  have hrun : ((image.drop start).takeWhile Prefix.isByte).length ≤
      (((image ++ suffix).drop start).takeWhile Prefix.isByte).length := by
    rw [List.drop_append_of_le_length hstart, List.takeWhile_append]
    split
    · next hall =>
      rw [hall, List.length_append]
      exact Nat.le_add_right _ _
    · exact Nat.le_refl _
  omega

theorem truncated_run :
    (Decoder.mk .builtin {}).decode (List.replicate 15 0x66) 0 none = .error ⟨0, .truncated 15⟩ ∧
      (DecodeError.mk 0 (.truncated 15)).isTruncation = true ∧
      ∀ suffix instruction,
        (Decoder.mk .builtin {}).decode (List.replicate 15 0x66 ++ suffix) 0 none ≠ .ok instruction :=
  ⟨by decide +kernel, rfl, fun suffix _ => decode_ne_ok_of_run (by decide) suffix⟩

/-- Of code that ends too early, more code makes an instruction exactly if a word of the grammar within the
limit begins with it. -/
theorem exists_decode_append_iff (hsound : decoder.table.Sound) (hstart : start ≤ image.length)
    (hshort : decoder.readCode (image.drop start) = .error .endOfCode) :
    (∃ suffix instruction, decoder.decode (image ++ suffix) start base = .ok instruction) ↔
      ∃ word, image.drop start <+: word ∧ Encodes decoder.table decoder.config word ∧
        word.length ≤ decoder.config.lengthLimit := by
  constructor
  · rintro ⟨suffix, instruction, hdecode⟩
    obtain ⟨reading, hread, hlimit, -⟩ := decode_eq_ok_iff.mp hdecode
    rw [List.drop_append_of_le_length hstart] at hread
    obtain ⟨word, hword, hencodes, hsize⟩ :=
      (readCode_size_iff hsound reading.size).mp ⟨reading, hread, rfl⟩
    refine ⟨word, ?_, hencodes, by omega⟩
    -- A word that ended in the code would have been read there.
    rcases List.prefix_or_prefix_of_prefix (List.prefix_append _ suffix) hword with hlonger | hshorter
    · exact hlonger
    · obtain ⟨found, hfound, -⟩ :=
        (readCode_size_iff hsound word.length).mpr ⟨word, hshorter, hencodes, rfl⟩
      rw [hshort] at hfound
      contradiction
  · rintro ⟨_, ⟨suffix, rfl⟩, hencodes, hlimit⟩
    obtain ⟨reading, hread, hsize⟩ := (readCode_whole_iff hsound).mpr hencodes
    rw [← List.drop_append_of_le_length hstart] at hread
    exact ⟨suffix, _, decode_eq_ok_iff.mpr ⟨reading, hread, hsize ▸ hlimit, rfl⟩⟩

theorem exists_word_of_truncated {error : DecodeError} {opcode : UInt8} {extension : Option Nat}
    {descriptor : Descriptor} {bound : Nat} (hsound : decoder.table.Sound)
    (hsecondary : decoder.table.lookup ⟨.secondary, opcode, extension⟩ = some descriptor)
    (hbound : ∀ key held, decoder.table.lookup key = some held → key.longest held ≤ bound)
    (h : decoder.decode image start base = .error error) (hkind : error.isTruncation = true) :
    (∃ word, image.drop start <+: word ∧ Encodes decoder.table decoder.config word ∧
        word.length ≤ ((image.drop start).takeWhile Prefix.isByte).length + bound) ∧
      ((∃ suffix instruction, decoder.decode (image ++ suffix) start base = .ok instruction) ↔
        ∃ word, image.drop start <+: word ∧ Encodes decoder.table decoder.config word ∧
          word.length ≤ decoder.config.lengthLimit) := by
  obtain ⟨cause, rfl, hfails⟩ := exists_fails_of_decode hsound h
  cases hfails with
  | outsideImage | unsupportedOpcode | invalidOperand | tooLong => contradiction
  | truncated hstart hlacks =>
    refine ⟨?_, exists_decode_append_iff hsound hstart (readBehind_of_lacks hsound hlacks)⟩
    obtain ⟨more, hspans⟩ := hlacks.exists_spans hsound hsecondary
    obtain ⟨key, held, hlookup, hlen⟩ := hspans.length_le
    have hword := hspans.encodes fun _ => PrefixState.isByte_of_mem_takeWhile
    have hcode := PrefixState.length_takeWhile_add_dropWhile (image.drop start)
    have hmost := hbound key held hlookup
    rw [← List.append_assoc, List.takeWhile_append_dropWhile] at hword
    refine ⟨_, List.prefix_append _ more, hword, ?_⟩
    rw [List.length_append] at hlen ⊢
    omega

/-- Truncated code is the beginning of an instruction, at most eleven bytes longer than its prefixes. More
code makes a decode succeed exactly if such an instruction is within the limit. -/
theorem exists_completion_of_truncated (config : Config) {image : List UInt8} {start : Nat}
    {base : Option UInt64} {error : DecodeError}
    (h : (Decoder.mk .builtin config).decode image start base = .error error)
    (hkind : error.isTruncation = true) :
    (∃ word, image.drop start <+: word ∧ Encodes .builtin config word ∧
        word.length ≤ ((image.drop start).takeWhile Prefix.isByte).length + 11) ∧
      ((∃ suffix instruction, (Decoder.mk .builtin config).decode (image ++ suffix) start base =
          .ok instruction) ↔
        ∃ word, image.drop start <+: word ∧ Encodes .builtin config word ∧
          word.length ≤ config.lengthLimit) := by
  have hsound := Table.sound_builtin
  have hsecondary := (Table.lookup_builtin_iff _ _).mpr Table.secondary_mem_registrations
  have hbound : ∀ key held, Table.builtin.lookup key = some held → key.longest held ≤ 11 :=
    fun _ _ => Table.longest_builtin_le
  -- These are all that is used of the table; its definition would only be unfolded.
  generalize Table.builtin = table at *
  exact exists_word_of_truncated hsound hsecondary hbound h hkind

theorem exists_completion_of_truncated_override :
    (Decoder.mk .builtin {}).decode [0x90, 0x66, 0x0F] 1 none = .error ⟨1, .truncated 2⟩ ∧
      ∃ suffix instruction,
        (Decoder.mk .builtin {}).decode ([0x90, 0x66, 0x0F] ++ suffix) 1 none = .ok instruction := by
  have h : (Decoder.mk .builtin {}).decode [0x90, 0x66, 0x0F] 1 none = .error ⟨1, .truncated 2⟩ := by
    decide +kernel
  obtain ⟨⟨word, hprefix, hword, hlen⟩, hiff⟩ := exists_completion_of_truncated {} h rfl
  exact ⟨h, hiff.mpr ⟨word, hprefix, hword, hlen.trans (by decide)⟩⟩

end Decoder
end IA32
