import IA32.Proofs.Overrides

set_option autoImplicit false

namespace IA32

theorem CodeSize.width_not (isOverridden : Bool) :
    bits16.width (!isOverridden) = bits32.width isOverridden := by cases isOverridden <;> rfl

def PrefixState.flipped (state : PrefixState) : PrefixState :=
  { state with operandSize := !state.operandSize, addressSize := !state.addressSize }

theorem PrefixState.ofRun_eq_flipped {run dual : List UInt8} (hoperand : 0x66 ∈ dual ↔ 0x66 ∉ run)
    (haddress : 0x67 ∈ dual ↔ 0x67 ∉ run) (hlock : (ofRun dual).lock = (ofRun run).lock)
    (hrepeats : (ofRun dual).repeats = (ofRun run).repeats)
    (hsegment : (ofRun dual).segment = (ofRun run).segment) : ofRun dual = (ofRun run).flipped := by
  have hoperandSize : (ofRun dual).operandSize = !(ofRun run).operandSize := by
    simp only [operandSize_ofRun, hoperand, decide_not]
  have haddressSize : (ofRun dual).addressSize = !(ofRun run).addressSize := by
    simp only [addressSize_ofRun, haddress, decide_not]
  unfold flipped
  rw [← hoperandSize, ← haddressSize, ← hlock, ← hrepeats, ← hsegment]

theorem Config.context_flipped (config : Config) (state : PrefixState) :
    { config with codeSize := .bits16 }.context state.flipped =
      { config with codeSize := .bits32 }.context state := by
  simp only [context, operandWidth, addressWidth, PrefixState.flipped, CodeSize.width_not]

/-- The instruction with this run in the place of an equally long one. -/
def Instruction.reprefixed (run : List UInt8) (instruction : Instruction) : Instruction :=
  { instruction with
    encoding := run ++ instruction.encoding.drop run.length
    prefixes := PrefixState.ofRun run }

theorem Instruction.size_reprefixed {run : List UInt8} {instruction : Instruction}
    (h : run.length ≤ instruction.size) : (instruction.reprefixed run).size = instruction.size := by
  unfold size at h
  simp only [size, reprefixed, List.length_append, List.length_drop]
  omega

theorem Instruction.text_reprefixed {run : List UInt8} {instruction : Instruction}
    (hlock : (PrefixState.ofRun run).lock = instruction.prefixes.lock)
    (hrepeats : (PrefixState.ofRun run).repeats = instruction.prefixes.repeats) :
    (instruction.reprefixed run).text = instruction.text := by
  have hprefixes : prefixText (PrefixState.ofRun run) = prefixText instruction.prefixes := by
    unfold prefixText
    rw [hlock, hrepeats]
  have hoperands : (instruction.reprefixed run).operandsText = instruction.operandsText := rfl
  unfold text
  rw [hoperands]
  exact congrArg (· ++ instruction.mnemonic ++ instruction.operandsText) hprefixes

namespace Decoder

variable {decoder other : Decoder} {run dual rest front back : List UInt8}

theorem readBehind_of_context (htable : other.table = decoder.table)
    (hcontext : other.config.context (.ofRun dual) = decoder.config.context (.ofRun run))
    (hlength : dual.length = run.length) (behind : List UInt8) :
    other.readBehind dual behind =
      (decoder.readBehind run behind).map ({ · with prefixes := .ofRun dual }) := by
  unfold readBehind
  rw [htable, hcontext, hlength]
  cases (decoder.table.readBody (decoder.config.context (.ofRun run))).run behind <;> rfl

theorem instruction_reprefixed {reading : Reading} {config once : Config}
    (hcontext : once.context (.ofRun dual) = config.context (.ofRun run))
    (hlength : dual.length = run.length) (hprefixes : reading.prefixes = .ofRun run)
    (hsize : run.length ≤ reading.size) (start : Nat) (base : Option UInt64) :
    { reading with prefixes := .ofRun dual }.instruction once (dual ++ rest) start base =
      (reading.instruction config (run ++ rest) start base).reprefixed dual := by
  have hwidth : once.operandWidth (.ofRun dual) = config.operandWidth reading.prefixes := by
    rw [hprefixes]
    exact congrArg Context.operandWidth hcontext
  obtain ⟨behind, hbehind⟩ := Nat.exists_eq_add_of_le hsize
  have hencoding : (dual ++ rest).take reading.size =
      dual ++ ((run ++ rest).take reading.size).drop dual.length := by
    calc
      (dual ++ rest).take reading.size = dual ++ rest.take behind := by
        rw [hbehind, ← hlength, List.take_length_add_append]
      _ = dual ++ (run ++ rest.take behind).drop run.length := by rw [List.drop_left]
      _ = dual ++ ((run ++ rest).take reading.size).drop dual.length := by
        rw [hbehind, hlength, List.take_length_add_append]
  unfold Reading.instruction Instruction.reprefixed
  simp only [hwidth, hencoding]

/-- Decoders with the same table and limit come to the same behind equally long prefix runs that give the
operands the same context. -/
theorem decode_of_context (htable : other.table = decoder.table)
    (hlimit : other.config.lengthLimit = decoder.config.lengthLimit)
    (hcontext : other.config.context (.ofRun dual) = decoder.config.context (.ofRun run))
    (hrun : ∀ byte ∈ run, Prefix.isByte byte = true)
    (hdual : ∀ byte ∈ dual, Prefix.isByte byte = true) (hlength : dual.length = run.length)
    (hrest : ∀ byte, rest.head? = some byte → Prefix.isByte byte = false)
    (hplace : back.length = front.length) (base : Option UInt64) :
    other.decode (back ++ (dual ++ rest)) back.length base =
      (decoder.decode (front ++ (run ++ rest)) front.length base).map
        (Instruction.reprefixed dual) := by
  obtain ⟨htake, hdrop⟩ := PrefixState.takeWhile_run_append_of_head hrun hrest
  obtain ⟨htakeDual, hdropDual⟩ := PrefixState.takeWhile_run_append_of_head hdual hrest
  have hcode : (front ++ (run ++ rest)).drop front.length = run ++ rest := List.drop_left
  have hcodeDual : (back ++ (dual ++ rest)).drop back.length = dual ++ rest := List.drop_left
  have hlen : (dual ++ rest).length = (run ++ rest).length := by
    rw [List.length_append, List.length_append, hlength]
  rw [decode_eq_place other (by simp) base, decode_eq_place decoder (by simp) base, hcode, hcodeDual,
    readCode, readCode, htake, hdrop, htakeDual, hdropDual,
    readBehind_of_context htable hcontext hlength]
  rcases hread : decoder.readBehind run rest with (_ | reason) | reading
  · simp only [Except.map, place, hlen, hplace]
  · simp only [Except.map, place, hplace]
  · have hprefixes : reading.prefixes = .ofRun run := by
      obtain ⟨_, -, rfl⟩ := map_eq_ok_iff.mp hread
      rfl
    have hsize : run.length ≤ reading.size := by
      obtain ⟨_, -, rfl⟩ := map_eq_ok_iff.mp hread
      exact Nat.le_add_right _ _
    simp only [Except.map, place, hlimit, hplace,
      instruction_reprefixed hcontext hlength hprefixes hsize]
    split <;> rfl

theorem prefixes_of_decode_run (hrun : ∀ byte ∈ run, Prefix.isByte byte = true)
    (hrest : ∀ byte, rest.head? = some byte → Prefix.isByte byte = false) {base : Option UInt64}
    {instruction : Instruction}
    (h : decoder.decode (front ++ (run ++ rest)) front.length base = .ok instruction) :
    instruction.prefixes = .ofRun run ∧ run.length ≤ instruction.size := by
  rw [decode_run_append decoder front hrun hrest] at h
  obtain ⟨bare, -, rfl⟩ := map_eq_ok_iff.mp h
  rw [bare.size_prefixed run]
  exact ⟨rfl, Nat.le_add_right _ _⟩

/-- Code of the two sizes is the same under opposite overrides: the same error, or the same instruction but
for its prefix bytes and what they are told to be. -/
theorem decode_dual (calls : List (OpcodeKey × Descriptor)) (config : Config)
    {run dual rest : List UInt8} (hrun : ∀ byte ∈ run, Prefix.isByte byte = true)
    (hdual : ∀ byte ∈ dual, Prefix.isByte byte = true) (hlength : dual.length = run.length)
    (hoperand : 0x66 ∈ dual ↔ 0x66 ∉ run) (haddress : 0x67 ∈ dual ↔ 0x67 ∉ run)
    (hlock : (PrefixState.ofRun dual).lock = (PrefixState.ofRun run).lock)
    (hrepeats : (PrefixState.ofRun dual).repeats = (PrefixState.ofRun run).repeats)
    (hsegment : (PrefixState.ofRun dual).segment = (PrefixState.ofRun run).segment)
    (hrest : ∀ byte, rest.head? = some byte → Prefix.isByte byte = false)
    (front back : List UInt8) (hplace : back.length = front.length) (base : Option UInt64) :
    (Decoder.mk (.ofCalls calls) { config with codeSize := .bits16 }).decode
        (back ++ (dual ++ rest)) back.length base =
      ((Decoder.mk (.ofCalls calls) { config with codeSize := .bits32 }).decode
        (front ++ (run ++ rest)) front.length base).map (Instruction.reprefixed dual) ∧
    ∀ found, (Decoder.mk (.ofCalls calls) { config with codeSize := .bits32 }).decode
        (front ++ (run ++ rest)) front.length base = .ok found →
      (found.reprefixed dual).prefixes = found.prefixes.flipped ∧
        (found.reprefixed dual).size = found.size ∧ (found.reprefixed dual).text = found.text := by
  have hflipped := PrefixState.ofRun_eq_flipped hoperand haddress hlock hrepeats hsegment
  have hcontext : { config with codeSize := .bits16 }.context (.ofRun dual) =
      { config with codeSize := .bits32 }.context (.ofRun run) := by
    rw [hflipped, config.context_flipped]
  constructor
  · refine decode_of_context ?_ ?_ ?_ hrun hdual hlength hrest hplace base
    · rfl
    · rfl
    · exact hcontext
  · intro found hfound
    obtain ⟨hprefixes, hsize⟩ := prefixes_of_decode_run hrun hrest hfound
    rw [← hlength] at hsize
    refine ⟨?_, Instruction.size_reprefixed hsize, Instruction.text_reprefixed ?_ ?_⟩
    · rw [hprefixes]
      exact hflipped
    · rw [hprefixes, hlock]
    · rw [hprefixes, hrepeats]

theorem decode_dual_jump : ∃ jump : Instruction,
    small.decode [0x90, 0x66, 0x2E, 0xEB, 0x02] 1 (some 0x12340) = .ok jump ∧
      jump.branchTarget = some 0x2347 ∧
      (Decoder.mk small.table { codeSize := .bits16 }).decode [0xC3, 0x2E, 0x67, 0xEB, 0x02] 1
        (some 0x12340) = .ok (jump.reprefixed [0x2E, 0x67]) ∧
      (jump.reprefixed [0x2E, 0x67]).text = jump.text := by
  let jump : Instruction := {
    mnemonic := "jmp"
    shape := .transfer .jump (some (.relative 2 (some 0x2347)))
    operands := [.immediate ⟨2, .byte, true⟩]
    encoding := [0x66, 0x2E, 0xEB, 0x02]
    offset := 1
    address := some 0x12341
    prefixes := { operandSize := true, segment := some .cs } }
  have h : small.decode [0x90, 0x66, 0x2E, 0xEB, 0x02] 1 (some 0x12340) = .ok jump := by
    decide +kernel
  have hrun : ∀ byte ∈ [0x66, 0x2E], Prefix.isByte byte = true := List.all_eq_true.mp rfl
  have hdual : ∀ byte ∈ [0x2E, 0x67], Prefix.isByte byte = true := List.all_eq_true.mp rfl
  have hrest : ∀ byte, [0xEB, 0x02].head? = some byte → Prefix.isByte byte = false := by
    rintro _ ⟨⟩
    decide
  have hboth : (Decoder.mk small.table { codeSize := .bits16 }).decode [0xC3, 0x2E, 0x67, 0xEB, 0x02] 1
        (some 0x12340) =
      (small.decode [0x90, 0x66, 0x2E, 0xEB, 0x02] 1 (some 0x12340)).map
        (Instruction.reprefixed [0x2E, 0x67]) ∧ _ :=
    decode_dual _ {} hrun hdual rfl (by decide) (by decide) rfl rfl rfl hrest [0x90] [0xC3] rfl
      (some 0x12340)
  obtain ⟨hdecode, htold⟩ := hboth
  obtain ⟨-, -, htext⟩ := htold jump h
  rw [h] at hdecode
  exact ⟨jump, h, rfl, hdecode, htext⟩

end Decoder
end IA32
