import IA32.Operand.Address
import IA32.Proofs.ReaderLaws

set_option autoImplicit false

/-!
# Forms of addresses

The tables of 16-bit and of 32-bit addressing, by the numbers in the fields of mode byte and scale byte. A
place in memory is read by looking its form up and taking the displacement that the form has, and what the
form adds up is where the place is.
-/
namespace IA32

open Reader

/-- A row of the tables: the registers that are added, the width of the displacement that is added to them,
and whether the form has a scale byte. -/
structure AddressForm where
  base : Option Register := none
  index : Option Register := none
  scale : Nat := 1
  displacement : Option Width := none
  hasScaleByte : Bool := false
  deriving DecidableEq, Repr

namespace AddressForm

def displacementOf (mode : Nat) (addressWidth : Width) : Option Width :=
  match mode with
  | 0 => none
  | 1 => some .byte
  | _ => some addressWidth

def general16 (number : Nat) : Option Register := some (.general number .word)

def general32 (number : Nat) : Option Register := some (.general number .dword)

def word (mode rm : Nat) : AddressForm :=
  let displacement := displacementOf mode .word
  match rm with
  | 0 => { base := general16 3, index := general16 6, displacement }
  | 1 => { base := general16 3, index := general16 7, displacement }
  | 2 => { base := general16 5, index := general16 6, displacement }
  | 3 => { base := general16 5, index := general16 7, displacement }
  | 4 => { base := general16 6, displacement }
  | 5 => { base := general16 7, displacement }
  | 6 =>
    if mode = 0 then { displacement := some .word }
    else { base := general16 5, displacement }
  | _ => { base := general16 3, displacement }

/-- The table of 32-bit addressing without a scale byte. Mode 0 has a displacement in the place of
register 5, which may be one from the instruction pointer. -/
def dword (displacementOnly : DisplacementOnly) (mode rm : Nat) : AddressForm :=
  if mode = 0 ∧ rm = 5 then
    match displacementOnly with
    | .absolute => { displacement := some .dword }
    | .instructionPointerRelative =>
      { base := some (.instructionPointer .dword), displacement := some .dword }
  else { base := general32 rm, displacement := displacementOf mode .dword }

def scaled (mode shift index base : Nat) : AddressForm where
  base := if mode = 0 ∧ base = 5 then none else general32 base
  index := if index = 4 then none else general32 index
  scale := Nat.pow 2 shift
  displacement := if mode = 0 ∧ base = 5 then some .dword else displacementOf mode .dword
  hasScaleByte := true

def ofFields (displacementOnly : DisplacementOnly) (addressWidth : Width) (mode rm : Nat)
    (next : UInt8) : AddressForm :=
  match addressWidth with
  | .word => word mode rm
  | _ =>
    if rm = 4 then scaled mode (next.toNat / 64) (next.toNat / 8 % 8) (next.toNat % 8)
    else dword displacementOnly mode rm

def displacementLength (form : AddressForm) : Nat := form.displacement.elim 0 Width.bytes

def length (form : AddressForm) : Nat := form.hasScaleByte.toNat + form.displacementLength

def displacementBytes (form : AddressForm) (code : List UInt8) : List UInt8 :=
  (code.drop form.hasScaleByte.toNat).take form.displacementLength

theorem length_displacementBytes (form : AddressForm) {code : List UInt8}
    (h : form.length ≤ code.length) :
    (form.displacementBytes code).length = form.displacementLength := by
  unfold length at h
  unfold displacementBytes
  rw [List.length_take, List.length_drop]
  omega

def pointers16 : List Register :=
  [.general 3 .word, .general 5 .word, .general 6 .word, .general 7 .word]

structure Sound (form : AddressForm) (displacementOnly : DisplacementOnly) (addressWidth : Width) :
    Prop where
  scale : MemoryAddress.isScale form.scale = true
  displacement : form.displacement = none ∨ form.displacement = some .byte ∨
    form.displacement = some addressWidth
  baseless : form.base = none → form.displacement = some addressWidth
  base : ∀ register, form.base = some register →
    (∃ number < 8, register = .general number addressWidth) ∨
      register = .instructionPointer .dword ∧ addressWidth = .dword ∧
        displacementOnly = .instructionPointerRelative ∧ form.index = none ∧
        form.displacement = some .dword
  index : ∀ register, form.index = some register →
    ∃ number < 8, register = .general number addressWidth
  wordScale : addressWidth = .word → form.scale = 1
  wordBase : addressWidth = .word → ∀ register, form.base = some register → register ∈ pointers16
  wordIndex : addressWidth = .word → ∀ register, form.index = some register → register ∈ pointers16
  dwordIndex : addressWidth = .dword → form.index ≠ some (.general 4 .dword)

theorem displacementOf_cases (mode : Nat) (addressWidth : Width) :
    displacementOf mode addressWidth = none ∨ displacementOf mode addressWidth = some .byte ∨
      displacementOf mode addressWidth = some addressWidth := by
  unfold displacementOf
  split
  · exact .inl rfl
  · exact .inr (.inl rfl)
  · exact .inr (.inr rfl)

theorem sound_word (displacementOnly : DisplacementOnly) (mode rm : Nat) :
    (word mode rm).Sound displacementOnly .word := by
  have hdisplacement := displacementOf_cases mode .word
  unfold word
  split
  case h_7 =>
    split
    · constructor <;> simp [MemoryAddress.isScale]
    · constructor <;> simp [MemoryAddress.isScale, general16, pointers16, hdisplacement]
  all_goals constructor <;> simp [MemoryAddress.isScale, general16, pointers16, hdisplacement]

theorem sound_dword (displacementOnly : DisplacementOnly) (mode : Nat) {rm : Nat} (hrm : rm < 8) :
    (dword displacementOnly mode rm).Sound displacementOnly .dword := by
  have hdisplacement := displacementOf_cases mode .dword
  unfold dword
  split
  · cases displacementOnly <;> constructor <;> simp [MemoryAddress.isScale]
  · constructor <;> simp [MemoryAddress.isScale, general32, hdisplacement, hrm]

theorem sound_scaled (displacementOnly : DisplacementOnly) (mode : Nat) {shift index base : Nat}
    (hshift : shift < 4) (hindex : index < 8) (hbase : base < 8) :
    (scaled mode shift index base).Sound displacementOnly .dword := by
  have hdisplacement := displacementOf_cases mode .dword
  have hscale : MemoryAddress.isScale (Nat.pow 2 shift) = true := by
    have hall : ∀ shift < 4, MemoryAddress.isScale (Nat.pow 2 shift) = true := by decide
    exact hall shift hshift
  constructor
  case scale => exact hscale
  all_goals
    by_cases hbaseless : mode = 0 ∧ base = 5 <;>
      simp [scaled, general32, hbaseless, hindex, hbase, hdisplacement]

theorem sound_ofFields (displacementOnly : DisplacementOnly) {addressWidth : Width}
    (hwidth : addressWidth ≠ .byte) (mode : Nat) {rm : Nat} (hrm : rm < 8) (next : UInt8) :
    (ofFields displacementOnly addressWidth mode rm next).Sound displacementOnly addressWidth := by
  have hnext := next.toNat_lt
  cases addressWidth with
  | byte => contradiction
  | word => exact sound_word displacementOnly mode rm
  | dword =>
    unfold ofFields
    dsimp only
    split
    · exact sound_scaled displacementOnly mode (by omega) (by omega) (by omega)
    · exact sound_dword displacementOnly mode hrm

end AddressForm

namespace Displacement

def ofBytes : Option Width → List UInt8 → Displacement
  | some .byte, bytes => disp8 (.ofNat (littleEndian bytes))
  | some .word, bytes => disp16 (.ofNat (littleEndian bytes))
  | some .dword, bytes => disp32 (.ofNat (littleEndian bytes))
  | _, _ => none

def readAs : Option Width → Reader Displacement
  | some width => take width.bytes fun bytes => done (ofBytes (some width) bytes)
  | _ => pure none

theorem readFull_eq_readAs {width : Width} (h : width ≠ .byte) : readFull width = readAs (some width) := by
  cases width with
  | byte => contradiction
  | word | dword => rfl

theorem read_eq_readAs (mode : Mode) {width : Width} (h : width ≠ .byte) :
    read mode width = readAs (AddressForm.displacementOf mode.number width) := by
  cases mode with
  | withoutDisplacement | shortDisplacement => rfl
  | fullDisplacement | register => exact readFull_eq_readAs h

theorem isPresent_ofBytes (width : Width) (bytes : List UInt8) :
    (ofBytes (some width) bytes).isPresent = true := by cases width <;> rfl

theorem value_ofBytes {width : Option Width} {bytes : List UInt8}
    (h : bytes.length = width.elim 0 Width.bytes) :
    (ofBytes width bytes).value = Int.bmod (littleEndian bytes) (Nat.pow 256 bytes.length) := by
  rw [h]
  cases width with
  | none =>
    obtain rfl := List.length_eq_zero_iff.mp h
    rfl
  | some width =>
    cases width with
    | byte => exact Int8.toInt_ofNat'
    | word => exact Int16.toInt_ofNat'
    | dword => exact Int32.toInt_ofNat'

theorem takes_readAs (width : Option Width) (code : List UInt8) :
    Takes (readAs width) code (width.elim 0 Width.bytes)
      (· = ofBytes width (code.take (width.elim 0 Width.bytes))) := by
  cases width with
  | none => exact takes_pure rfl
  | some width => exact ⟨fun h => ⟨_, run_take_of_le h, rfl⟩, run_take_of_lt⟩

end Displacement

namespace AddressForm

variable {context : Context} {displacementOnly : DisplacementOnly} {addressWidth : Width}
  {form : AddressForm}

def address (form : AddressForm) (context : Context) (addressWidth : Width)
    (displacement : Displacement) : MemoryAddress where
  base := form.base
  index := form.index
  scale := if form.index.isSome then form.scale else 1
  displacement
  segment := context.segment
  addressWidth

def read (form : AddressForm) (context : Context) (addressWidth : Width) : Reader MemoryAddress := do
  return form.address context addressWidth (← Displacement.readAs form.displacement)

theorem Sound.read_eq (h : form.Sound displacementOnly addressWidth) :
    Displacement.readAs form.displacement >>=
        MemoryAddress.complete context addressWidth form.base form.index form.scale =
      form.read context addressWidth := by
  have hcomplete : ∀ displacement : Displacement,
      form.base.isSome = true ∨ displacement.isPresent = true →
      MemoryAddress.complete context addressWidth form.base form.index form.scale displacement =
        pure (form.address context addressWidth displacement) := by
    intro displacement hnamed
    have hsome : (form.base.isNone && form.index.isNone && !displacement.isPresent) = false := by
      rcases hnamed with hbase | hpresent
      · simp [Option.isNone_eq_false_iff.mpr hbase]
      · simp [hpresent]
    unfold MemoryAddress.complete MemoryAddress.make?
    simp only [hsome, h.scale, if_true, Bool.false_eq_true, if_false]
    rfl
  unfold read
  cases hwidth : form.displacement with
  | none =>
    refine hcomplete .none (.inl ?_)
    cases hbase : form.base with
    | none =>
      rw [h.baseless hbase] at hwidth
      contradiction
    | some register => rfl
  | some width =>
    refine congrArg (take width.bytes) (funext fun bytes => ?_)
    exact hcomplete _ (.inr (Displacement.isPresent_ofBytes width bytes))

theorem takes_read (form : AddressForm) (context : Context) (addressWidth : Width) (code : List UInt8) :
    Takes (form.read context addressWidth) code form.displacementLength
      (· = form.address context addressWidth
        (.ofBytes form.displacement (code.take form.displacementLength))) :=
  takes_map (Displacement.takes_readAs form.displacement code) fun _ h => congrArg _ h

theorem hasScaleByte_word (mode rm : Nat) : (word mode rm).hasScaleByte = false := by
  unfold word
  split <;> (try split) <;> rfl

theorem hasScaleByte_dword (displacementOnly : DisplacementOnly) (mode rm : Nat) :
    (dword displacementOnly mode rm).hasScaleByte = false := by
  unfold dword
  split
  · cases displacementOnly <;> rfl
  · rfl

theorem takes_read_of_not (h : form.hasScaleByte = false) (context : Context) (addressWidth : Width)
    (code : List UInt8) :
    Takes (form.read context addressWidth) code form.length
      (· = form.address context addressWidth
        (.ofBytes form.displacement (form.displacementBytes code))) := by
  unfold length displacementBytes
  simpa [h] using form.takes_read context addressWidth code

end AddressForm

namespace MemoryAddress

variable {context : Context} {byte : ModeByte}

theorem read16_eq_read (byte : ModeByte) :
    read16 context byte = (AddressForm.word byte.mode.number byte.rm.val).read context .word := by
  have hform := AddressForm.sound_word context.displacementOnly byte.mode.number byte.rm.val
  rw [← hform.read_eq]
  obtain ⟨mode, reg, rm⟩ := byte
  match rm with
  | 0 | 1 | 2 | 3 | 4 | 5 | 6 | 7 => cases mode <;> rfl

theorem general32_eq (number : Fin 8) :
    AddressForm.general32 number = some (Register.ofNumber number .dword) := by
  rw [AddressForm.general32, Register.ofNumber, Nat.mod_eq_of_lt number.isLt]

theorem mode_number_eq_zero_iff (mode : Mode) : mode.number = 0 ↔ mode = .withoutDisplacement := by
  cases mode <;> decide

theorem readScaled_eq_read (mode : Mode) :
    readScaled context mode = ScaleByte.read >>= fun byte =>
      (AddressForm.scaled mode.number byte.shift byte.index byte.base).read context .dword := by
  refine congrArg (Reader.bind _) (funext fun byte => ?_)
  have hwidth : Width.dword ≠ .byte := Width.noConfusion
  have hform := AddressForm.sound_scaled context.displacementOnly mode.number byte.shift.isLt
    byte.index.isLt byte.base.isLt
  rw [← hform.read_eq]
  unfold AddressForm.scaled index32
  simp only [mode_number_eq_zero_iff, general32_eq]
  by_cases hbaseless : mode = .withoutDisplacement ∧ byte.base.val = 5
  · simp only [if_pos hbaseless, Displacement.readFull_eq_readAs hwidth]
    rfl
  · simp only [if_neg hbaseless, Displacement.read_eq_readAs mode hwidth]
    rfl

theorem read32_eq_read (h : byte.rm.val ≠ 4) :
    read32 context byte = (AddressForm.dword context.displacementOnly byte.mode.number byte.rm.val).read
      context .dword := by
  have hwidth : Width.dword ≠ .byte := Width.noConfusion
  have hform := AddressForm.sound_dword context.displacementOnly byte.mode.number byte.rm.isLt
  rw [← hform.read_eq, read32, if_neg h]
  unfold AddressForm.dword
  simp only [mode_number_eq_zero_iff, general32_eq]
  by_cases hbaseless : byte.mode = .withoutDisplacement ∧ byte.rm.val = 5
  · simp only [if_pos hbaseless, Displacement.readFull_eq_readAs hwidth]
    cases context.displacementOnly <;> rfl
  · simp only [if_neg hbaseless, Displacement.read_eq_readAs byte.mode hwidth]

theorem scaled_ofByte (mode : Nat) (next : UInt8) :
    AddressForm.scaled mode (ScaleByte.ofByte next).shift (ScaleByte.ofByte next).index
        (ScaleByte.ofByte next).base =
      AddressForm.scaled mode (next.toNat / 64) (next.toNat / 8 % 8) (next.toNat % 8) := by
  have hnext := next.toNat_lt
  have hshift : (ScaleByte.ofByte next).shift.val = next.toNat / 64 := Nat.mod_eq_of_lt (by omega)
  rw [hshift]
  rfl

/-- A place in memory is read as the row that the mode byte names. -/
theorem takes_read (hwidth : context.addressWidth ≠ .byte) (byte : ModeByte) (code : List UInt8) :
    let form := AddressForm.ofFields context.displacementOnly context.addressWidth byte.mode.number
      byte.rm.val (code.headD 0)
    Takes (read context byte) code form.length
      (· = form.address context context.addressWidth
        (.ofBytes form.displacement (form.displacementBytes code))) := by
  unfold read
  generalize context.addressWidth = addressWidth at hwidth ⊢
  cases addressWidth with
  | byte => contradiction
  | word =>
    rw [read16_eq_read]
    exact AddressForm.takes_read_of_not (AddressForm.hasScaleByte_word _ _) _ _ _
  | dword =>
    unfold AddressForm.ofFields
    by_cases hrm : byte.rm.val = 4
    · simp only [if_pos hrm]
      rw [read32, if_pos hrm, readScaled_eq_read]
      cases code with
      | nil => exact takes_nil rfl (Nat.add_pos_left Nat.one_pos _)
      | cons next code =>
        have hread : Takes ScaleByte.read (next :: code) 1 (· = .ofByte next) :=
          ⟨fun _ => ⟨_, rfl, rfl⟩, fun h => absurd h (by simp)⟩
        refine takes_bind hread ?_
        rintro _ rfl
        rw [scaled_ofByte]
        exact AddressForm.takes_read _ _ _ code
    · simp only [if_neg hrm]
      rw [read32_eq_read hrm]
      exact AddressForm.takes_read_of_not (AddressForm.hasScaleByte_dword _ _ _) _ _ _

end MemoryAddress
end IA32
