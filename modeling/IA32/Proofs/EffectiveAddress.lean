import IA32.Proofs.AddressForms
import IA32.Proofs.CursorReads
import IA32.Proofs.Outcome

set_option autoImplicit false

namespace IA32

open Reader

def MemoryAddress.effective (address : MemoryAddress) (values : Register → Int) : Int :=
  (address.base.elim 0 values + address.index.elim 0 values * address.scale
    + address.displacement.value) % address.addressWidth.modulus

/-- Where the form leads with these values in the registers: the displacement counts as a signed number. -/
def AddressForm.effective (form : AddressForm) (values : Register → Int) (addressWidth : Width)
    (displacement : List UInt8) : Int :=
  (form.base.elim 0 values + form.index.elim 0 values * form.scale
    + Int.bmod (littleEndian displacement) (Nat.pow 256 displacement.length)) % addressWidth.modulus

theorem AddressForm.effective_address (form : AddressForm) (context : Context) (addressWidth : Width)
    {bytes : List UInt8} (h : bytes.length = form.displacementLength) (values : Register → Int) :
    (form.address context addressWidth (.ofBytes form.displacement bytes)).effective values =
      form.effective values addressWidth bytes := by
  have hindex : form.index.elim 0 values * (if form.index.isSome then form.scale else 1 : Nat) =
      form.index.elim 0 values * form.scale := by
    cases form.index with
    | none => simp
    | some register => rfl
  unfold MemoryAddress.effective effective address
  simp only [hindex, Displacement.value_ofBytes h]

theorem ModeByte.number_mode_ofByte (byte : UInt8) :
    (ofByte byte).mode.number = byte.toNat / 64 := by
  have hbyte := byte.toNat_lt
  have hall : ∀ number < 4, (Mode.ofNumber number).number = number := by decide
  exact hall _ (by omega)

namespace Operand

theorem takes_readRm_memory {context : Context} (hwidth : context.addressWidth ≠ .byte) {byte : ModeByte}
    (hmode : byte.mode ≠ .register) {kind : OperandForm} (hkind : kind ≠ .registerOnly) (width : Width)
    (code : List UInt8) :
    let form := AddressForm.ofFields context.displacementOnly context.addressWidth byte.mode.number
      byte.rm.val (code.headD 0)
    Takes (readRm context byte kind width) code form.length
      (· = .memory (form.address context context.addressWidth
        (.ofBytes form.displacement (form.displacementBytes code))) width) := by
  have hmemory : byte.isRegister = false := decide_eq_false hmode
  unfold readRm
  rw [hmemory, if_neg Bool.false_ne_true, if_neg hkind]
  exact takes_map (MemoryAddress.takes_read hwidth byte code) fun _ h => congrArg (memory · width) h

/-- An operand in memory takes the bytes of its form and leads where the form leads, for all values of the
registers; where the image ends before those bytes it is a truncation, and nothing else ever fails. -/
theorem read_effective_address (config : Config) (prefixes : PrefixState) (image : List UInt8)
    (cursor : Cursor) {byte : UInt8} (hmode : byte.toNat / 64 ≠ 3) {kind : OperandForm}
    (hkind : kind ≠ .registerOnly) (width : Width) :
    let addressWidth := config.addressWidth prefixes
    let code := image.drop cursor.pos
    let form := AddressForm.ofFields config.displacementOnly addressWidth (byte.toNat / 64)
      (byte.toNat % 8) (code.headD 0)
    let outcome := cursor.read image (readRm (config.context prefixes) (.ofByte byte) kind width)
    (code.length < form.length → outcome = .error (cursor.truncated image)) ∧
      (form.length ≤ code.length → ∃ address,
        outcome = .ok (.memory address width, { cursor with pos := cursor.pos + form.length }) ∧
          address.addressWidth = addressWidth ∧
          ∀ values, address.effective values =
            form.effective values addressWidth (form.displacementBytes code)) := by
  intro addressWidth code form outcome
  have hmemory : (ModeByte.ofByte byte).mode ≠ .register := by
    intro hregister
    have hnumber := ModeByte.number_mode_ofByte byte
    rw [hregister] at hnumber
    exact hmode hnumber.symm
  have htakes := takes_readRm_memory (config.addressWidth_context_ne prefixes) hmemory hkind width code
  rw [ModeByte.number_mode_ofByte] at htakes
  obtain ⟨hshort, henough⟩ := Cursor.read_of_takes htakes
  refine ⟨hshort, fun hlength => ?_⟩
  obtain ⟨_, hread, rfl⟩ := henough hlength
  exact ⟨_, hread, rfl, form.effective_address (config.context prefixes) addressWidth
    (form.length_displacementBytes hlength)⟩

theorem read_effective_address_scaled : ∃ address,
    Cursor.read ⟨0, 2⟩ [0x8B, 0x04, 0x8D, 0xF0, 0xFF, 0xFF, 0xFF]
        (readRm (Config.context {} {}) (.ofByte 0x04) .any .dword) =
      .ok (.memory address .dword, ⟨0, 7⟩) ∧
    ∀ values, address.effective values = (values (.general 1 .dword) * 4 - 16) % 0x100000000 := by
  have hmode : (0x04 : UInt8).toNat / 64 ≠ 3 := by decide
  have hkind : OperandForm.any ≠ .registerOnly := by decide
  obtain ⟨address, hread, -, heffective⟩ :=
    (read_effective_address {} {} [0x8B, 0x04, 0x8D, 0xF0, 0xFF, 0xFF, 0xFF] ⟨0, 2⟩ hmode hkind .dword).2
      (by decide)
  refine ⟨address, hread, fun values => ?_⟩
  rw [heffective]
  change (0 + values (.general 1 .dword) * 4 + -16) % 0x100000000 = _
  omega

end Operand
end IA32
