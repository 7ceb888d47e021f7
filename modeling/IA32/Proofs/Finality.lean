import Mathlib.Control.Monad.Basic
import IA32.Proofs.Causes

set_option autoImplicit false

/-!
# Finality

A decode that comes to an instruction, or to an error other than a truncation, comes to the same before more
code. What opcode and mode byte decide is decided as soon as they are there: of the image up to the last of
them, every shorter cut is a truncation.
-/
namespace IA32

def opcodeLength (behind : List UInt8) : Nat :=
  if behind.head? = some escapeByte then 2 else 1

def opcodeEnd (code : List UInt8) : Nat :=
  (code.takeWhile Prefix.isByte).length + opcodeLength (code.dropWhile Prefix.isByte)

/-- How many bytes of the code decide a cause that is a matter of opcode and mode byte alone. An opcode
without any registration does not wait for a mode byte. -/
def DecodeCause.decidingLength? (cause : DecodeCause) (code : List UInt8) : Option Nat :=
  match cause with
  | .unsupportedOpcode key => some (opcodeEnd code + key.extension.isSome.toNat)
  | .invalidOperand _ => some (opcodeEnd code + 1)
  | .truncated _ | .tooLong _ | .outsideImage _ => none

theorem Spells.length_eq {bytes : List UInt8} {map : OpcodeMap} {opcode : UInt8}
    (h : Spells bytes map opcode) (rest : List UInt8) :
    bytes.length = opcodeLength (bytes ++ rest) := by
  cases h with
  | primary hbyte hescape => simp [opcodeLength, hescape]
  | secondary => rfl

namespace Table

variable {table : Table} {bytes code tail : List UInt8} {map : OpcodeMap} {opcode : UInt8}

def LacksParts (table : Table) (head : List UInt8) : Prop :=
  ∀ sizes, ∀ k < head.length, table.Lacks sizes (head.take k)

theorem lacksParts_opcode (h : Spells bytes map opcode) : table.LacksParts bytes := by
  intro sizes k hk
  cases h with
  | primary hbyte hescape =>
    have hzero : k = 0 := by simpa using hk
    subst hzero
    exact .opcode
  | secondary =>
    have hcases : k = 0 ∨ k = 1 := by
      simp only [List.length_cons, List.length_nil] at hk
      omega
    rcases hcases with rfl | rfl
    · exact .opcode
    · exact .secondOpcode

theorem lacksParts_modeByte (h : Spells bytes map opcode) (htakes : table.TakesModeByte map opcode)
    (byte : UInt8) : table.LacksParts (bytes ++ [byte]) := by
  intro sizes k hk
  have hle : k ≤ bytes.length := by
    simp only [List.length_append, List.length_cons, List.length_nil] at hk
    omega
  rw [List.take_append_of_le_length hle]
  by_cases hall : k = bytes.length
  · rw [List.take_of_length_le (Nat.le_of_eq hall.symm)]
    exact .modeByte h htakes
  · exact lacksParts_opcode h sizes k (by omega)

theorem Selects.takesModeByte {byte : ModeByte} {descriptor : Descriptor}
    (h : table.Selects map opcode (some byte) descriptor) : table.TakesModeByte map opcode := by
  cases h with
  | withModeByte hlookup hneeds => exact .inl ⟨descriptor, hlookup, hneeds⟩
  | member hlookup => exact .inr ⟨_, descriptor, hlookup⟩

theorem Unsupported.exists_head {key : OpcodeKey} (h : table.Unsupported code key) :
    ∃ head rest, code = head ++ rest ∧ table.Unsupported head key ∧ table.LacksParts head ∧
      head.length = opcodeLength code + key.extension.isSome.toNat := by
  cases h with
  | @opcode bytes rest map opcode hspells hnone =>
    refine ⟨bytes, rest, rfl, ?_, lacksParts_opcode hspells, hspells.length_eq rest⟩
    have halone : table.Unsupported (bytes ++ []) ⟨map, opcode, none⟩ := .opcode hspells hnone
    rwa [List.append_nil] at halone
  | @member bytes rest map opcode byte other descriptor hspells hgroup hnone =>
    have hlen := hspells.length_eq (byte :: rest)
    refine ⟨bytes ++ [byte], rest, by simp, .member hspells hgroup hnone,
      lacksParts_modeByte hspells (.inr ⟨other, descriptor, hgroup⟩) byte, ?_⟩
    rw [List.length_append, hlen]
    rfl

theorem Reaches.exists_head {byte : ModeByte} {descriptor : Descriptor}
    (h : table.Reaches code (some byte) descriptor tail) :
    ∃ head rest, code = head ++ rest ∧ table.Reaches head (some byte) descriptor [] ∧
      table.LacksParts head ∧ head.length = opcodeLength code + 1 := by
  obtain ⟨bytes, map, opcode, found, hspells, hbyte, hselects, rfl⟩ := h
  obtain ⟨raw, rfl, rfl⟩ := Option.map_eq_some_iff.mp hbyte
  have hlen := hspells.length_eq (raw :: tail)
  refine ⟨bytes ++ [raw], tail, by simp, ⟨bytes, map, opcode, some raw, hspells, rfl, hselects, rfl⟩,
    lacksParts_modeByte hspells hselects.takesModeByte raw, ?_⟩
  rw [List.length_append, hlen]
  rfl

end Table

theorem Reading.instruction_append {reading : Reading} {code : List UInt8}
    (h : reading.size ≤ code.length) (config : Config) (more : List UInt8) (start : Nat)
    (base : Option UInt64) :
    reading.instruction config (code ++ more) start base =
      reading.instruction config code start base := by
  unfold instruction
  rw [List.take_append_of_le_length h]

namespace Decoder

variable {decoder : Decoder} {image : List UInt8} {start length : Nat} {base : Option UInt64}
  {cause : DecodeCause}

/-- Code in which nothing is missing decides a decode: what follows is not looked at, and no byte of an
instruction lies in it. -/
theorem decode_of_decided {window more : List UInt8} (hstart : start ≤ image.length)
    (hcode : image.drop start = window ++ more) (h : decoder.readCode window ≠ .error .endOfCode)
    (base : Option UInt64) :
    decoder.decode image start base = decoder.place window start base (decoder.readCode window) := by
  rw [decode_eq_place decoder hstart base, hcode, readCode_append_of_decided h]
  rcases hread : decoder.readCode window with (_ | reason) | reading
  · contradiction
  · rfl
  · obtain ⟨-, hsize, -⟩ := readCode_take_size hread
    unfold place
    simp only [Reading.instruction_append hsize]

theorem decode_append_of_decided (hstart : start ≤ image.length)
    (h : ∀ error, decoder.decode image start base = .error error → error.isTruncation = false)
    (more : List UInt8) :
    decoder.decode (image ++ more) start base = decoder.decode image start base := by
  have hmore : start ≤ (image ++ more).length := by
    rw [List.length_append]
    omega
  have hdecided : decoder.readCode (image.drop start) ≠ .error .endOfCode := by
    intro hend
    have herror : decoder.decode image start base =
        .error ⟨start, .truncated (image.drop start).length⟩ := by
      rw [decode_eq_place decoder hstart base, hend]
      rfl
    have := h _ herror
    contradiction
  rw [decode_of_decided hmore (List.drop_append_of_le_length hstart) hdecided,
    decode_eq_place decoder hstart base]

theorem decode_append_of_ok {instruction : Instruction}
    (h : decoder.decode image start base = .ok instruction) (more : List UInt8) :
    decoder.decode (image ++ more) start base = .ok instruction := by
  obtain ⟨hstart, -, -, -⟩ := decode_offset h
  rw [decode_append_of_decided hstart ?_ more, h]
  intro error herror
  rw [h] at herror
  contradiction

theorem decode_append_of_error {error : DecodeError} (hstart : start ≤ image.length)
    (h : decoder.decode image start base = .error error) (hkind : error.isTruncation = false)
    (more : List UInt8) : decoder.decode (image ++ more) start base = .error error := by
  rw [decode_append_of_decided hstart ?_ more, h]
  intro same hsame
  rw [h] at hsame
  rwa [← Except.error.inj hsame]

theorem offset_of_place_error {code : List UInt8} {outcome : Except Halt Reading}
    {error : DecodeError} (h : decoder.place code start base outcome = .error error) :
    error.offset = start := by
  rcases outcome with (_ | reason) | reading
  · cases h
    rfl
  · cases h
    rfl
  · rw [place] at h
    split at h
    · cases h
      rfl
    · contradiction

theorem offset_of_decode_error {error : DecodeError}
    (h : decoder.decode image start base = .error error) : error.offset = start := by
  by_cases hstart : start ≤ image.length
  · rw [decode_eq_place decoder hstart base] at h
    exact offset_of_place_error h
  · rw [decode_of_outside decoder (by omega) base] at h
    cases h
    rfl

theorem exists_fails_of_decode (hsound : decoder.table.Sound) {error : DecodeError}
    (h : decoder.decode image start base = .error error) :
    ∃ cause, error = ⟨start, cause⟩ ∧ decoder.Fails image start cause := by
  rcases exists_decode_or_fails hsound image start base with ⟨instruction, hok⟩ | ⟨cause, hfails⟩
  · rw [hok] at h
    contradiction
  · have herror := hfails.decode_eq hsound base
    rw [h] at herror
    exact ⟨cause, Except.error.inj herror, hfails⟩

theorem behind_take (image : List UInt8) (start k : Nat) :
    ((image.take (start + k)).drop start).dropWhile Prefix.isByte =
      ((image.drop start).dropWhile Prefix.isByte).take
        (k - ((image.drop start).takeWhile Prefix.isByte).length) := by
  rw [List.drop_take, Nat.add_sub_cancel_left, PrefixState.dropWhile_take]

theorem length_run_add_head_le {head rest : List UInt8} (hstart : start ≤ image.length)
    (h : (image.drop start).dropWhile Prefix.isByte = head ++ rest) :
    start + (((image.drop start).takeWhile Prefix.isByte).length + head.length) ≤ image.length := by
  have hsplit := PrefixState.length_takeWhile_add_dropWhile (image.drop start)
  rw [h, List.length_append, List.length_drop] at hsplit
  omega

theorem fails_take_of_lacksParts {head rest : List UInt8} (hstart : start ≤ image.length)
    (h : (image.drop start).dropWhile Prefix.isByte = head ++ rest)
    (hparts : decoder.table.LacksParts head) (hhead : 0 < head.length) {k : Nat}
    (hk : k < ((image.drop start).takeWhile Prefix.isByte).length + head.length) :
    decoder.Fails (image.take (start + k)) start (.truncated k) := by
  have hinside := length_run_add_head_le hstart h
  have hlen : (image.take (start + k)).length = start + k := List.length_take_of_le (by omega)
  have hlacks : decoder.table.Lacks
      (decoder.config.sizes (((image.take (start + k)).drop start).takeWhile Prefix.isByte))
      (((image.take (start + k)).drop start).dropWhile Prefix.isByte) := by
    rw [behind_take, h, List.take_append_of_le_length (by omega)]
    exact hparts _ _ (by omega)
  have hfails := Fails.truncated (by omega) hlacks
  rwa [hlen, Nat.add_sub_cancel_left] at hfails

/-- A cause that opcode and mode byte decide stands in the bytes up to the last of them, and in no shorter
part. -/
theorem Fails.exists_head (h : decoder.Fails image start cause)
    (hlength : cause.decidingLength? (image.drop start) = some length) :
    ∃ head rest, (image.drop start).dropWhile Prefix.isByte = head ++ rest ∧
      decoder.table.LacksParts head ∧ 0 < head.length ∧
      length = ((image.drop start).takeWhile Prefix.isByte).length + head.length ∧
      ∀ (other : List UInt8) (place : Nat),
        (other.drop place).dropWhile Prefix.isByte = head → decoder.Fails other place cause := by
  have hpos : 0 < opcodeLength ((image.drop start).dropWhile Prefix.isByte) := by
    unfold opcodeLength
    split <;> omega
  cases h with
  | unsupportedOpcode hkey =>
    obtain ⟨head, rest, hbehind, halone, hparts, hlen⟩ := hkey.exists_head
    have hsum := Option.some.inj hlength
    unfold opcodeEnd at hsum
    refine ⟨head, rest, hbehind, hparts, by omega, by omega, fun other place hother => ?_⟩
    exact .unsupportedOpcode (hother ▸ halone)
  | invalidOperand hreach hmisfit =>
    obtain ⟨head, rest, hbehind, halone, hparts, hlen⟩ := hreach.exists_head
    have hsum := Option.some.inj hlength
    unfold opcodeEnd at hsum
    refine ⟨head, rest, hbehind, hparts, by omega, by omega, fun other place hother => ?_⟩
    exact .invalidOperand (hother ▸ halone) hmisfit
  | outsideImage | tooLong | truncated => contradiction

/-- Errors other than truncations are final. Those of opcode and mode byte come with the last byte that
decides them, whatever follows it, and with no earlier one. -/
theorem decode_error_final (calls : List (OpcodeKey × Descriptor)) (config : Config)
    {image : List UInt8} {start : Nat} {base : Option UInt64} {error : DecodeError}
    (hstart : start ≤ image.length)
    (h : (Decoder.mk (.ofCalls calls) config).decode image start base = .error error)
    (hkind : error.isTruncation = false) :
    (∀ suffix, (Decoder.mk (.ofCalls calls) config).decode (image ++ suffix) start base =
        .error error) ∧
      ∀ length, error.cause.decidingLength? (image.drop start) = some length →
        start + length ≤ image.length ∧
        (∀ suffix, (Decoder.mk (.ofCalls calls) config).decode
          (image.take (start + length) ++ suffix) start base = .error error) ∧
        ∀ k < length, (Decoder.mk (.ofCalls calls) config).decode (image.take (start + k)) start base =
          .error ⟨start, .truncated k⟩ := by
  have hsound : (Decoder.mk (.ofCalls calls) config).table.Sound := Table.sound_ofCalls calls
  refine ⟨decode_append_of_error hstart h hkind, fun length hlength => ?_⟩
  obtain ⟨cause, rfl, hfails⟩ := exists_fails_of_decode hsound h
  obtain ⟨head, rest, hbehind, hparts, hpos, hsum, hcause⟩ := hfails.exists_head hlength
  have hinside := length_run_add_head_le hstart hbehind
  rw [← hsum] at hinside
  have hcut : ((image.take (start + length)).drop start).dropWhile Prefix.isByte = head := by
    rw [behind_take, hbehind, hsum, Nat.add_sub_cancel_left, List.take_left]
  have hroom : start ≤ (image.take (start + length)).length := by
    rw [List.length_take_of_le hinside]
    omega
  refine ⟨hinside, ?_, fun k hk => ?_⟩
  · exact decode_append_of_error hroom ((hcause _ _ hcut).decode_eq hsound base) hkind
  · exact (fails_take_of_lacksParts hstart hbehind hparts hpos (by omega)).decode_eq hsound base

theorem decode_error_final_lea :
    let decoder := Decoder.mk (.ofCalls
      [Builtin.primary 0x8D (Builtin.general "lea" [Builtin.Gv, Builtin.Mv])]) {}
    let error := DecodeError.mk 1 (.invalidOperand .registerForm)
    decoder.decode [0x90, 0x66, 0x8D, 0xC1, 0xFF] 1 none = .error error ∧
      decoder.decode [0x90, 0x66, 0x8D, 0xC1, 0xFF, 0x90] 1 none = .error error ∧
      decoder.decode [0x90, 0x66, 0x8D, 0xC1, 0x05] 1 none = .error error ∧
      decoder.decode [0x90, 0x66, 0x8D] 1 none = .error ⟨1, .truncated 2⟩ := by
  intro decoder error
  have h : decoder.decode [0x90, 0x66, 0x8D, 0xC1, 0xFF] 1 none = .error error := by decide +kernel
  obtain ⟨hfinal, hdecided⟩ := decode_error_final _ _ (by decide) h rfl
  obtain ⟨-, hcut, hshort⟩ := hdecided 3 (by decide)
  exact ⟨h, hfinal [0x90], hcut [0x05], hshort 2 (by decide)⟩

end Decoder
end IA32
