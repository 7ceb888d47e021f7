import IA32.Decoder
import IA32.Proofs.PrefixRun
import IA32.Proofs.ReaderLaws

set_option autoImplicit false

/-!
# Readings

A decode reads the code at its start as if that were all there is: `readCode` knows neither image nor
address. `decode_eq_place` splits a decode into that reading and the step that puts it in its place, so that
what follows of the reading holds at every place.
-/
namespace IA32

/-- What the code from some byte on holds, wherever that byte is. -/
structure Reading where
  prefixes : PrefixState
  body : Body
  size : Nat
  deriving DecidableEq, Repr

def Reading.instruction (reading : Reading) (config : Config) (code : List UInt8) (start : Nat)
    (base : Option UInt64) : Instruction :=
  let descriptor := reading.body.selection.descriptor
  let width := config.operandWidth reading.prefixes
  let address := base.map (· + .ofNat start)
  { mnemonic := descriptor.mnemonicFor width
    shape := Instruction.shapeOf descriptor.kind reading.body.operands width
      (address.map (· + .ofNat reading.size))
    operands := reading.body.operands
    encoding := code.take reading.size
    offset := start
    address
    prefixes := reading.prefixes }

theorem Reading.build_eq_instruction (reading : Reading) (config : Config) {image : List UInt8}
    {start : Nat} (base : Option UInt64) (hpos : 0 < reading.size)
    (hsize : reading.size ≤ (image.drop start).length) (hlimit : reading.size ≤ config.lengthLimit) :
    Instruction.build reading.body.selection.descriptor reading.body.operands reading.prefixes
        (config.operandWidth reading.prefixes) image ⟨start, start + reading.size⟩ base =
      .ok (reading.instruction config (image.drop start) start base) := by
  have hmax := config.lengthLimit_le
  have hconsumed : Cursor.consumed ⟨start, start + reading.size⟩ = reading.size :=
    Nat.add_sub_cancel_left _ _
  rw [List.length_drop] at hsize
  unfold Instruction.build
  simp only [hconsumed]
  rw [if_neg (by omega), if_neg (by omega)]
  rfl

theorem Reading.size_instruction {reading : Reading} {code : List UInt8}
    (h : reading.size ≤ code.length) (config : Config) (start : Nat) (base : Option UInt64) :
    (reading.instruction config code start base).size = reading.size := List.length_take_of_le h

def Cursor.behindPrefixes (image : List UInt8) (start : Nat) : Cursor :=
  (Cursor.ofOffset start).advanceTo (PrefixState.scan image start).2

theorem Cursor.behindPrefixes_eq (image : List UInt8) (start : Nat) :
    behindPrefixes image start =
      ⟨start, start + ((image.drop start).takeWhile Prefix.isByte).length⟩ := by
  unfold behindPrefixes ofOffset advanceTo
  rw [PrefixState.scan_eq, Nat.max_eq_left (Nat.le_add_right _ _)]

theorem Table.readBody_run_nil (table : Table) (context : Context) :
    (table.readBody context).run [] = .error .endOfCode := rfl

namespace Decoder

def readBehind (decoder : Decoder) (run behind : List UInt8) : Except Halt Reading :=
  ((decoder.table.readBody (decoder.config.context (PrefixState.ofRun run))).run behind).map
    fun read => ⟨PrefixState.ofRun run, read.1, run.length + (behind.length - read.2.length)⟩

def readCode (decoder : Decoder) (code : List UInt8) : Except Halt Reading :=
  decoder.readBehind (code.takeWhile Prefix.isByte) (code.dropWhile Prefix.isByte)

/-- The outcome of a decode at `start`, given what was read of the code from there to the end. -/
def place (decoder : Decoder) (code : List UInt8) (start : Nat) (base : Option UInt64) :
    Except Halt Reading → Except DecodeError Instruction
  | .error .endOfCode => .error ⟨start, .truncated code.length⟩
  | .error (.fault reason) => .error ⟨start, reason.cause⟩
  | .ok reading =>
    if reading.size > decoder.config.lengthLimit then
      .error ⟨start, .tooLong decoder.config.lengthLimit⟩
    else .ok (reading.instruction decoder.config code start base)

variable {decoder : Decoder} {run behind code : List UInt8} {reading : Reading}

theorem readBehind_nil : decoder.readBehind run [] = .error .endOfCode := by
  unfold readBehind
  rw [Table.readBody_run_nil]
  rfl

theorem readBehind_append_of_decided (h : decoder.readBehind run behind ≠ .error .endOfCode)
    (more : List UInt8) : decoder.readBehind run (behind ++ more) = decoder.readBehind run behind := by
  unfold readBehind at h ⊢
  generalize decoder.table.readBody (decoder.config.context (PrefixState.ofRun run)) = reader at h ⊢
  have hdecided : reader.run behind ≠ .error .endOfCode := by
    intro hend
    rw [hend] at h
    exact h rfl
  rw [Reader.run_append_of_decided hdecided more]
  cases reader.run behind with
  | error halt => rfl
  | ok read =>
    simp only [Except.map, Except.ok.injEq, Reading.mk.injEq, List.length_append, true_and]
    omega

theorem readBehind_used (h : decoder.readBehind run behind = .ok reading) :
    ∃ byte used more, behind = byte :: used ++ more ∧ reading.size = run.length + (used.length + 1) ∧
      decoder.readBehind run (byte :: used) = .ok reading := by
  unfold readBehind at h ⊢
  obtain ⟨read, hread, rfl⟩ := map_eq_ok_iff.mp h
  obtain ⟨used, hsplit, hused⟩ := Reader.run_used hread
  cases used with
  | nil =>
    rw [Table.readBody_run_nil] at hused
    contradiction
  | cons byte used =>
    have hlen : behind.length - read.2.length = used.length + 1 := by
      rw [hsplit, List.length_append, List.length_cons]
      omega
    refine ⟨byte, used, read.2, hsplit, ?_, ?_⟩
    · simp only [hlen]
    · simp only [hused, hlen, Except.map, List.length_cons, List.length_nil, Nat.sub_zero]

theorem scan_of_readCode {image : List UInt8} {start : Nat}
    (h : decoder.readCode (image.drop start) = .ok reading) :
    (PrefixState.scan image start).1 = reading.prefixes := by
  obtain ⟨read, -, rfl⟩ := map_eq_ok_iff.mp h
  rw [PrefixState.scan_eq]

theorem readCode_run_append (hrun : ∀ byte ∈ run, Prefix.isByte byte = true) {byte : UInt8}
    (hbyte : Prefix.isByte byte = false) (rest : List UInt8) :
    decoder.readCode (run ++ byte :: rest) = decoder.readBehind run (byte :: rest) := by
  obtain ⟨htake, hdrop⟩ := PrefixState.takeWhile_run_append hrun hbyte rest
  rw [readCode, htake, hdrop]

/-- What has been read does not change when more code follows. -/
theorem readCode_append_of_decided (h : decoder.readCode code ≠ .error .endOfCode)
    (more : List UInt8) : decoder.readCode (code ++ more) = decoder.readCode code := by
  have hended : code.dropWhile Prefix.isByte ≠ [] := by
    intro hnil
    rw [readCode, hnil] at h
    exact h readBehind_nil
  obtain ⟨htake, hdrop⟩ := PrefixState.takeWhile_append_of_ended hended more
  unfold readCode at h ⊢
  rw [htake, hdrop]
  exact readBehind_append_of_decided h more

theorem readCode_append_of_ok (h : decoder.readCode code = .ok reading) (more : List UInt8) :
    decoder.readCode (code ++ more) = .ok reading := by
  have hdecided : decoder.readCode code ≠ .error .endOfCode := by
    rw [h]
    simp
  rw [readCode_append_of_decided hdecided, h]

/-- The bytes of an instruction are all that it needs, and there is at least one. -/
theorem readCode_take_size (h : decoder.readCode code = .ok reading) :
    0 < reading.size ∧ reading.size ≤ code.length ∧
      decoder.readCode (code.take reading.size) = .ok reading := by
  obtain ⟨byte, used, more, hsplit, hsize, hused⟩ := readBehind_used h
  have hrun : ∀ byte ∈ code.takeWhile Prefix.isByte, Prefix.isByte byte = true :=
    fun _ => PrefixState.isByte_of_mem_takeWhile
  have hbyte := PrefixState.isByte_of_dropWhile hsplit
  have hcode := List.takeWhile_append_dropWhile (p := Prefix.isByte) (l := code)
  rw [hsplit, ← List.append_assoc] at hcode
  generalize code.takeWhile Prefix.isByte = run at *
  have hlen : reading.size = (run ++ byte :: used).length := by
    rw [hsize, List.length_append, List.length_cons]
  subst hcode
  refine ⟨by omega, ?_, ?_⟩
  · rw [hlen]
    exact (List.prefix_append _ _).length_le
  · rw [hlen, List.take_left, readCode_run_append hrun hbyte]
    exact hused

/-- A part of an instruction decides nothing, not even a fault. -/
theorem readCode_take_of_lt (h : decoder.readCode code = .ok reading) {k : Nat}
    (hk : k < reading.size) : decoder.readCode (code.take k) = .error .endOfCode := by
  -- A part that decides something would decide it of the whole code, and so be as long as the instruction.
  by_cases hcut : decoder.readCode (code.take k) = .error .endOfCode
  · exact hcut
  · have hread := readCode_append_of_decided hcut (code.drop k)
    rw [List.take_append_drop, h] at hread
    obtain ⟨-, hsize, -⟩ := readCode_take_size hread.symm
    rw [List.length_take] at hsize
    omega

theorem read_behindPrefixes (decoder : Decoder) (image : List UInt8) (start : Nat) :
    (Cursor.behindPrefixes image start).read image
        (decoder.table.readBody (decoder.config.context (PrefixState.scan image start).1)) =
      match decoder.readCode (image.drop start) with
      | .ok reading => .ok (reading.body, ⟨start, start + reading.size⟩)
      | .error halt => .error ((Cursor.ofOffset start).error image halt) := by
  have hbehind : image.drop (start + ((image.drop start).takeWhile Prefix.isByte).length) =
      (image.drop start).dropWhile Prefix.isByte := by
    rw [← List.drop_drop, PrefixState.drop_length_takeWhile]
  unfold Cursor.read readCode readBehind
  simp only [Cursor.behindPrefixes_eq, PrefixState.scan_eq, hbehind]
  cases (decoder.table.readBody (decoder.config.context (PrefixState.ofRun
      ((image.drop start).takeWhile Prefix.isByte)))).run
      ((image.drop start).dropWhile Prefix.isByte) with
  | error halt => cases halt <;> rfl
  | ok read => simp only [Except.map, Nat.add_assoc]

/-- A decode is the reading of the code from `start` to the end, put in its place: `build` refuses nothing
that was read. -/
theorem decode_eq_place (decoder : Decoder) {image : List UInt8} {start : Nat}
    (h : start ≤ image.length) (base : Option UInt64) :
    decoder.decode image start base =
      decoder.place (image.drop start) start base (decoder.readCode (image.drop start)) := by
  have hread := decoder.read_behindPrefixes image start
  unfold Cursor.behindPrefixes at hread
  unfold decode
  simp only [hread, if_neg (Nat.not_lt.mpr h)]
  rcases hcode : decoder.readCode (image.drop start) with (_ | reason) | reading
  · rw [place, List.length_drop]
    rfl
  · rfl
  · obtain ⟨hpos, hsize, -⟩ := readCode_take_size hcode
    rw [place]
    simp only [bind, Except.bind, Cursor.consumed, Nat.add_sub_cancel_left, scan_of_readCode hcode]
    split
    · rfl
    · next hlimit =>
      exact reading.build_eq_instruction decoder.config base hpos hsize (Nat.not_lt.mp hlimit)

theorem decode_of_outside (decoder : Decoder) {image : List UInt8} {start : Nat}
    (h : image.length < start) (base : Option UInt64) :
    decoder.decode image start base = .error ⟨start, .outsideImage image.length⟩ := by
  unfold decode
  rw [if_pos h]
  rfl

theorem readCode_nil : decoder.readCode [] = .error .endOfCode := readBehind_nil

theorem decode_eq_ok_iff {image : List UInt8} {start : Nat} {base : Option UInt64}
    {instruction : Instruction} :
    decoder.decode image start base = .ok instruction ↔
      ∃ reading, decoder.readCode (image.drop start) = .ok reading ∧
        reading.size ≤ decoder.config.lengthLimit ∧
        reading.instruction decoder.config (image.drop start) start base = instruction := by
  by_cases hstart : start ≤ image.length
  · rw [decode_eq_place decoder hstart base]
    rcases hread : decoder.readCode (image.drop start) with (_ | reason) | reading
    · simp [place]
    · simp [place]
    · by_cases hlimit : reading.size ≤ decoder.config.lengthLimit
      · simp [place, hlimit, Nat.not_lt.mpr hlimit]
      · simp [place, hlimit, Nat.not_le.mp hlimit]
  · rw [decode_of_outside decoder (by omega) base, List.drop_of_length_le (by omega), readCode_nil]
    simp

section Map

variable {other : Decoder} {image second : List UInt8} {start : Nat} {base : Option UInt64}
  {change : Reading → Reading}

theorem decode_error_of_map
    (hread : other.readCode (second.drop start) = (decoder.readCode (image.drop start)).map change)
    (hlimit : other.config.lengthLimit = decoder.config.lengthLimit)
    (hlength : second.length = image.length) (hsize : ∀ reading, (change reading).size = reading.size)
    {error : DecodeError} (h : decoder.decode image start base = .error error) :
    other.decode second start base = .error error := by
  by_cases hstart : start ≤ image.length
  · rw [decode_eq_place _ hstart] at h
    rw [decode_eq_place _ (hlength ▸ hstart), hread]
    rcases hcode : decoder.readCode (image.drop start) with (_ | reason) | reading
    · rw [hcode, place, List.length_drop] at h
      rw [Except.map, place, List.length_drop, hlength]
      exact h
    · rwa [hcode] at h
    · rw [hcode, place] at h
      rw [Except.map, place, hsize, hlimit]
      split at h
      · next hlong => rwa [if_pos hlong]
      · contradiction
  · rw [decode_of_outside _ (by omega)] at h
    rw [decode_of_outside _ (by omega), hlength]
    exact h

theorem decode_of_map {effect : Instruction → Instruction}
    (hread : other.readCode (second.drop start) = (decoder.readCode (image.drop start)).map change)
    (hlimit : other.config.lengthLimit = decoder.config.lengthLimit)
    (hlength : second.length = image.length) (hsize : ∀ reading, (change reading).size = reading.size)
    (heffect : ∀ reading, decoder.readCode (image.drop start) = .ok reading →
      (change reading).instruction other.config (second.drop start) start base =
        effect (reading.instruction decoder.config (image.drop start) start base)) :
    other.decode second start base = (decoder.decode image start base).map effect := by
  cases hdecode : decoder.decode image start base with
  | error error => exact decode_error_of_map hread hlimit hlength hsize hdecode
  | ok found =>
    obtain ⟨reading, hcode, hle, rfl⟩ := decode_eq_ok_iff.mp hdecode
    rw [hcode] at hread
    exact decode_eq_ok_iff.mpr ⟨_, hread, by rwa [hsize, hlimit], heffect reading hcode⟩

end Map

end Decoder
end IA32
