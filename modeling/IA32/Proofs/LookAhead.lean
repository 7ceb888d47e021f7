import IA32.Proofs.Addresses
import IA32.Proofs.Lengths
import IA32.Proofs.Stages

set_option autoImplicit false

namespace IA32

open Reader

namespace Table

variable {table : Table} {sizes : Sizes} {code : List UInt8} {bound : Nat}

/-- No instruction of the table takes more than so many bytes behind its prefixes, and the bytes that spell
an opcode are not so many. -/
structure Within (table : Table) (bound : Nat) : Prop where
  spelled : 2 < bound
  longest : ∀ key descriptor, table.lookup key = some descriptor → key.longest descriptor ≤ bound

theorem Sound.within (h : table.Sound) : table.Within 16 where
  spelled := by decide
  longest key _ hlookup := key.longest_le (h.defect key _ hlookup)

theorem within_builtin : builtin.Within 11 where
  spelled := by decide
  longest _ _ := longest_builtin_le

theorem Lacks.length_lt (hwithin : table.Within bound) (h : table.Lacks sizes code) :
    code.length < bound := by
  have hleast := hwithin.spelled
  cases h with
  | opcode => exact Nat.zero_lt_of_lt hleast
  | secondOpcode => exact Nat.lt_of_succ_lt hleast
  | @modeByte _ map _ hspells _ =>
    have htwo : map.spelledLength ≤ 2 := by cases map <;> decide
    rw [hspells.length_bytes]
    omega
  | @operands _ tail modeByte descriptor hreach _ hshort =>
    obtain ⟨key, hlookup, hlen⟩ := hreach.length_eq
    have htail := sizes.tailLength_le descriptor.operands modeByte tail.head?
    have hkey := hwithin.longest key descriptor hlookup
    unfold OpcodeKey.longest at hkey
    omega

end Table

namespace Cursor

variable {α : Type} {cursor before : Cursor} {image : List UInt8} {reader : Reader α}

theorem pos_le_of_mem_trail (h : cursor ∈ before.trail image reader)
    (hpos : before.pos ≤ image.length) : cursor.pos ≤ image.length := by
  induction reader generalizing before with
  | done value | fail fault =>
    rw [List.mem_singleton.mp h]
    exact hpos
  | take count rest ih =>
    rw [trail] at h
    split at h
    · next hcount =>
      rcases List.mem_cons.mp h with rfl | hrest
      · exact hpos
      · refine ih _ hrest ?_
        rw [List.length_drop] at hcount
        change before.pos + count ≤ image.length
        omega
    · rw [List.mem_singleton.mp h]
      exact hpos

/-- A reader that is not cut short stands at the same places in a longer image. -/
theorem trail_append_of_decided (hpos : before.pos ≤ image.length)
    (h : reader.run (image.drop before.pos) ≠ .error .endOfCode) (more : List UInt8) :
    before.trail (image ++ more) reader = before.trail image reader := by
  induction reader generalizing before with
  | done value | fail fault => rfl
  | take count rest ih =>
    by_cases hcount : count ≤ (image.drop before.pos).length
    · have hlonger : count ≤ ((image ++ more).drop before.pos).length := by
        rw [List.drop_append_of_le_length hpos, List.length_append]
        omega
      rw [run_take_of_le hcount, List.drop_drop] at h
      rw [trail, trail, if_pos hcount, if_pos hlonger, List.drop_append_of_le_length hpos,
        List.take_append_of_le_length hcount]
      rw [List.length_drop] at hcount
      exact congrArg (before :: ·) (ih _ (by change before.pos + count ≤ image.length; omega) h)
    · rw [run_take_of_lt (Nat.not_le.mp hcount)] at h
      contradiction

end Cursor

def PrefixState.runLength (image : List UInt8) (start : Nat) : Nat := (scan image start).2 - start

theorem PrefixState.runLength_eq (image : List UInt8) (start : Nat) :
    runLength image start = ((image.drop start).takeWhile Prefix.isByte).length := by
  unfold runLength
  rw [scan_eq]
  exact Nat.add_sub_cancel_left _ _

namespace Decoder

variable {decoder : Decoder} {image other code run behind : List UInt8} {start bound : Nat}

/-- A decode at `start` has to do with no more than so many bytes behind the prefixes. -/
structure LooksWithin (decoder : Decoder) (bound : Nat) (image : List UInt8) (start : Nat) : Prop where
  trail : ∀ cursor ∈ decoder.trail image start,
    cursor.pos ≤ start + PrefixState.runLength image start + bound
  truncated : ∀ base error, decoder.decode image start base = .error error →
    error.isTruncation = true → image.length - start < PrefixState.runLength image start + bound
  tooLong : ∀ base error limit, decoder.decode image start base = .error error →
    error.cause = .tooLong limit → limit < PrefixState.runLength image start + bound
  agree : ∀ other : List UInt8, start ≤ other.length →
    (other.drop start).take (PrefixState.runLength image start + bound) =
      (image.drop start).take (PrefixState.runLength image start + bound) →
    (∀ base, decoder.decode other start base = decoder.decode image start base) ∧
      ∀ base origin, (decoder.decode other start origin).map Instruction.unbased =
        (decoder.decode image start base).map Instruction.unbased

theorem lacks_of_readBehind (hsound : decoder.table.Sound)
    (hhead : ∀ byte, behind.head? = some byte → Prefix.isByte byte = false)
    (h : decoder.readBehind run behind = .error .endOfCode) :
    decoder.table.Lacks (decoder.config.sizes run) behind := by
  rcases Table.outcome_cases hsound (decoder.config.sizes run)
    (fun byte _ hbehind => hhead byte (congrArg List.head? hbehind)) with
    ⟨modeByte, descriptor, tail, hreach, hfits, henough⟩ |
      ⟨byte, descriptor, tail, fault, hreach, hmisfit⟩ | ⟨key, hunsupported⟩ | hlacks
  · obtain ⟨reading, hread, -⟩ := readBehind_of_enough hsound hreach hfits henough
    rw [hread] at h
    contradiction
  · rw [readBehind_of_misfit hsound hreach hmisfit] at h
    cases h
  · rw [readBehind_of_unsupported hsound hunsupported] at h
    cases h
  · exact hlacks

/-- So many bytes as the longest instruction takes decide what is read. -/
theorem readBehind_take_ne (hsound : decoder.table.Sound) (hwithin : decoder.table.Within bound)
    (h : bound ≤ (code.dropWhile Prefix.isByte).length) (run : List UInt8) :
    decoder.readBehind run ((code.dropWhile Prefix.isByte).take bound) ≠ .error .endOfCode := by
  intro hend
  have hhead : ∀ byte, ((code.dropWhile Prefix.isByte).take bound).head? = some byte →
      Prefix.isByte byte = false := by
    intro byte hbyte
    rw [List.head?_take, if_neg (Nat.ne_of_gt (Nat.zero_lt_of_lt hwithin.spelled))] at hbyte
    exact PrefixState.head?_dropWhile hbyte
  have hlt := (lacks_of_readBehind hsound hhead hend).length_lt hwithin
  rw [List.length_take_of_le h] at hlt
  exact absurd hlt (Nat.lt_irrefl bound)

theorem readCode_take (decoder : Decoder) (code : List UInt8) (count : Nat) :
    decoder.readCode (code.take ((code.takeWhile Prefix.isByte).length + count)) =
      decoder.readBehind (code.takeWhile Prefix.isByte) ((code.dropWhile Prefix.isByte).take count) := by
  have hcut : code.take ((code.takeWhile Prefix.isByte).length + count) =
      code.takeWhile Prefix.isByte ++ (code.dropWhile Prefix.isByte).take count := by
    calc
      code.take ((code.takeWhile Prefix.isByte).length + count) =
          (code.takeWhile Prefix.isByte ++ code.dropWhile Prefix.isByte).take
            ((code.takeWhile Prefix.isByte).length + count) := by rw [List.takeWhile_append_dropWhile]
      _ = _ := List.take_length_add_append _
  have hhead : ∀ byte, ((code.dropWhile Prefix.isByte).take count).head? = some byte →
      Prefix.isByte byte = false := by
    intro byte hbyte
    rw [List.head?_take] at hbyte
    split at hbyte
    · contradiction
    · exact PrefixState.head?_dropWhile hbyte
  obtain ⟨hrun, hbehind⟩ :=
    PrefixState.takeWhile_run_append_of_head (fun _ => PrefixState.isByte_of_mem_takeWhile) hhead
  rw [readCode, hcut, hrun, hbehind]

theorem readCode_take_ne (hsound : decoder.table.Sound) (hwithin : decoder.table.Within bound)
    (h : (code.takeWhile Prefix.isByte).length + bound ≤ code.length) :
    decoder.readCode (code.take ((code.takeWhile Prefix.isByte).length + bound)) ≠
      .error .endOfCode := by
  have hsplit := PrefixState.length_takeWhile_add_dropWhile code
  rw [readCode_take]
  exact readBehind_take_ne hsound hwithin (by omega) _

theorem size_le_of_within (hsound : decoder.table.Sound) (hwithin : decoder.table.Within bound)
    {reading : Reading} (h : decoder.readCode code = .ok reading) :
    reading.size ≤ (code.takeWhile Prefix.isByte).length + bound := by
  by_contra hlong
  -- The bytes up to the bound are part of the instruction and would decide it before it ends.
  obtain ⟨-, hsize, -⟩ := readCode_take_size h
  exact readCode_take_ne hsound hwithin (by omega) (readCode_take_of_lt h (by omega))

/-- The cursor does not leave the window that the longest instruction takes. -/
theorem pos_le_of_mem_trail (hsound : decoder.table.Sound) (hwithin : decoder.table.Within bound)
    (hstart : start ≤ image.length) {cursor : Cursor} (h : cursor ∈ decoder.trail image start) :
    cursor.pos ≤ start + ((image.drop start).takeWhile Prefix.isByte).length + bound := by
  have hsplit := PrefixState.length_takeWhile_add_dropWhile (image.drop start)
  rw [List.length_drop] at hsplit
  rcases List.mem_cons.mp h with rfl | hbehind
  · exact Nat.le_trans (Nat.le_add_right _ _) (Nat.le_add_right _ _)
  let before : Cursor := ⟨start, start + ((image.drop start).takeWhile Prefix.isByte).length⟩
  rw [Cursor.behindPrefixes_eq, PrefixState.scan_eq] at hbehind
  generalize hreader : decoder.table.readBody _ = reader at hbehind
  change cursor ∈ before.trail image reader at hbehind
  by_cases hlong : bound ≤ ((image.drop start).dropWhile Prefix.isByte).length
  · -- In the image cut behind the window the reader stands at the same places, and inside the image.
    have hcut : (image.take (before.pos + bound)).length = before.pos + bound := by
      refine List.length_take_of_le ?_
      dsimp only [before]
      omega
    have hbefore : before.pos ≤ (image.take (before.pos + bound)).length := by omega
    have hcode : (image.take (before.pos + bound)).drop before.pos =
        ((image.drop start).dropWhile Prefix.isByte).take bound := by
      rw [List.drop_take, Nat.add_sub_cancel_left, ← List.drop_drop, PrefixState.drop_length_takeWhile]
    have hdecided : reader.run ((image.take (before.pos + bound)).drop before.pos) ≠
        .error .endOfCode := by
      intro hend
      refine readBehind_take_ne hsound hwithin hlong ((image.drop start).takeWhile Prefix.isByte) ?_
      rw [readBehind, hreader, ← hcode, hend]
      rfl
    have hsame := Cursor.trail_append_of_decided hbefore hdecided (image.drop (before.pos + bound))
    rw [List.take_append_drop] at hsame
    rw [hsame] at hbehind
    exact hcut ▸ Cursor.pos_le_of_mem_trail hbehind hbefore
  · have hinside := Cursor.pos_le_of_mem_trail hbehind (by dsimp only [before]; omega)
    omega

theorem decode_of_agree (hsound : decoder.table.Sound) (hwithin : decoder.table.Within bound)
    (hstart : start ≤ image.length) (hother : start ≤ other.length)
    (h : (other.drop start).take (((image.drop start).takeWhile Prefix.isByte).length + bound) =
      (image.drop start).take (((image.drop start).takeWhile Prefix.isByte).length + bound))
    (base : Option UInt64) : decoder.decode other start base = decoder.decode image start base := by
  by_cases hlong : ((image.drop start).takeWhile Prefix.isByte).length + bound ≤
      (image.drop start).length
  · have hdecided := readCode_take_ne hsound hwithin hlong
    rw [decode_of_decided hstart (List.take_append_drop _ _).symm hdecided,
      decode_of_decided hother (by rw [← h, List.take_append_drop]) hdecided]
  · -- Where the image ends before the window does, so does the other one, and the code is the same.
    have hcut : (image.drop start).length <
        ((image.drop start).takeWhile Prefix.isByte).length + bound := Nat.not_le.mp hlong
    rw [List.take_of_length_le (Nat.le_of_lt hcut)] at h
    have hlen := congrArg List.length h
    rw [List.length_take] at hlen
    have hsame : other.drop start = image.drop start := by
      rw [← h, List.take_of_length_le (by omega)]
    rw [decode_eq_place decoder hstart, decode_eq_place decoder hother, hsame]

theorem looksWithin_of_within (hsound : decoder.table.Sound) (hwithin : decoder.table.Within bound)
    (hstart : start ≤ image.length) : decoder.LooksWithin bound image start := by
  have hsplit := PrefixState.length_takeWhile_add_dropWhile (image.drop start)
  rw [List.length_drop] at hsplit
  constructor <;> rw [PrefixState.runLength_eq]
  case trail => exact fun cursor => pos_le_of_mem_trail hsound hwithin hstart
  case truncated =>
    intro base error h hkind
    obtain ⟨cause, rfl, hfails⟩ := exists_fails_of_decode hsound h
    cases hfails with
    | truncated _ hlacks =>
      have hbehind := hlacks.length_lt hwithin
      omega
    | outsideImage | unsupportedOpcode | invalidOperand | tooLong => contradiction
  case tooLong =>
    intro base error limit h hcause
    obtain ⟨cause, rfl, hfails⟩ := exists_fails_of_decode hsound h
    obtain rfl : cause = .tooLong limit := hcause
    cases hfails with
    | @tooLong word hprefix hword hlimit =>
      obtain ⟨reading, hread, hsize⟩ :=
        (readCode_size_iff hsound word.length).mpr ⟨word, hprefix, hword, rfl⟩
      have hmost := size_le_of_within hsound hwithin hread
      omega
  case agree =>
    intro other hother hsame
    have hdecode := decode_of_agree hsound hwithin hstart hother hsame
    refine ⟨hdecode, fun base origin => ?_⟩
    rw [← decode_none, ← decode_none, hdecode]

/-- No decode has to do with more than sixteen bytes behind the prefixes, whatever its table was built of.
With the built-in table it is eleven, so that an instruction beyond fifteen bytes has five prefixes. -/
theorem looksWithin_decode (calls : List (OpcodeKey × Descriptor)) (config : Config)
    {image : List UInt8} {start : Nat} (h : start ≤ image.length) :
    (Decoder.mk (.ofCalls calls) config).LooksWithin 16 image start ∧
      (Decoder.mk .builtin config).LooksWithin 11 image start ∧
      (config.lengthLimit = maxInstructionLength → ∀ base error,
        (Decoder.mk .builtin config).decode image start base = .error error →
        error.cause = .tooLong maxInstructionLength → 5 ≤ PrefixState.runLength image start) := by
  have hsound : (Decoder.mk (.ofCalls calls) config).table.Sound := Table.sound_ofCalls calls
  refine ⟨looksWithin_of_within hsound hsound.within h, ?_⟩
  have hbuiltin := Table.sound_builtin
  have hwithin := Table.within_builtin
  -- These are all that is used of the built-in table; its definition would only be unfolded.
  generalize Table.builtin = table at hbuiltin hwithin ⊢
  have hlooks : (Decoder.mk table config).LooksWithin 11 image start :=
    looksWithin_of_within hbuiltin hwithin h
  refine ⟨hlooks, fun _ base error herror hcause => ?_⟩
  have hlong := hlooks.tooLong base error _ herror hcause
  unfold maxInstructionLength at hlong
  omega

def far : Decoder where
  table := .ofCalls [Builtin.secondary 0x38
    (Builtin.general "far" [⟨.rm .any, .dword⟩, ⟨.immediate, .dword⟩, ⟨.immediate, .dword⟩])]

theorem looksWithin_decode_far :
    let code : List UInt8 := [0x2E, 0x0F, 0x38, 0x84, 0x8B, 0, 0, 0, 0, 1, 2, 3, 4, 5, 6, 7]
    far.decode code 0 none = .error ⟨0, .truncated 16⟩ ∧
      far.decode (code ++ [8]) 0 none = .error ⟨0, .tooLong 15⟩ ∧
      PrefixState.runLength code 0 = 1 ∧ far.LooksWithin 16 code 0 := by
  intro code
  have hstart : 0 ≤ code.length := Nat.zero_le _
  have hwithin : far.LooksWithin 16 code 0 := (looksWithin_decode _ {} hstart).1
  exact ⟨by decide +kernel, by decide +kernel, by decide +kernel, hwithin⟩

end Decoder
end IA32
