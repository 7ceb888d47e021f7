import Mathlib.Control.Monad.Basic
import IA32.Proofs.BuiltTable
import IA32.Proofs.Reading

set_option autoImplicit false

namespace IA32

def Destination.untargeted : Destination → Destination
  | .relative displacement _ => .relative displacement none
  | .indirect operand => .indirect operand

def Shape.untargeted : Shape → Shape
  | .transfer flow destination => .transfer flow (destination.map Destination.untargeted)
  | shape => shape

/-- The instruction without its offset, its address and the target that follows from them. -/
def Instruction.unplaced (instruction : Instruction) : Instruction :=
  { instruction with shape := instruction.shape.untargeted, offset := 0, address := none }

namespace Instruction

theorem destination_untargeted (width : Width) (next : Option UInt64) (operand : Operand) :
    (destination width next operand).untargeted = destination width none operand := by
  cases operand <;> rfl

theorem shapeOf_untargeted (kind : InstructionClass) (operands : List Operand) (width : Width)
    (next : Option UInt64) :
    (shapeOf kind operands width next).untargeted = shapeOf kind operands width none := by
  cases kind with
  | general => cases operands <;> rfl
  | transfer flow =>
    have hhead : (operands.head?.map (destination width next)).map Destination.untargeted =
        operands.head?.map (destination width none) := by
      rw [Option.map_map]
      exact congrArg (operands.head?.map ·) (funext (destination_untargeted width next))
    cases flow with
    | ret => rfl
    | jump | conditionalJump | call => exact congrArg (Shape.transfer _) hhead

theorem text_eq_of_unplaced {instruction other : Instruction}
    (h : instruction.unplaced = other.unplaced)
    (htarget : instruction.branchTarget = other.branchTarget) : instruction.text = other.text := by
  simp only [unplaced, Instruction.mk.injEq] at h
  obtain ⟨hmnemonic, -, hoperands, -, -, -, hprefixes⟩ := h
  have htexts : instruction.operandTexts = other.operandTexts := by
    unfold operandTexts
    rw [htarget, hoperands]
  unfold text operandsText
  rw [hmnemonic, hprefixes, htexts]

end Instruction

theorem Reading.unplaced_instruction (reading : Reading) (config : Config) (code : List UInt8)
    (start : Nat) (base : Option UInt64) :
    (reading.instruction config code start base).unplaced =
      reading.instruction config (code.take reading.size) 0 none := by
  have hshape := Instruction.shapeOf_untargeted reading.body.selection.descriptor.kind
    reading.body.operands (config.operandWidth reading.prefixes)
    ((base.map (· + .ofNat start)).map (· + .ofNat reading.size))
  unfold Instruction.unplaced Reading.instruction
  simp only [hshape, List.take_take, Nat.min_self, Option.map_none]

namespace Decoder

def small : Decoder where
  table := .ofCalls [Builtin.primary 0xEB (Builtin.transfer "jmp" .jump [Builtin.Jb]),
    Builtin.member 0x81 0 (Builtin.general "add" [Builtin.Ev, Builtin.Iv])]

variable {decoder : Decoder} {image : List UInt8} {start : Nat} {base : Option UInt64}
  {instruction : Instruction}

theorem readCode_encoding (h : decoder.decode image start base = .ok instruction) :
    ∃ reading, decoder.readCode instruction.encoding = .ok reading ∧
      reading.size = instruction.size ∧ reading.size ≤ decoder.config.lengthLimit ∧
      instruction.encoding = (image.drop start).take instruction.size ∧
      instruction.unplaced = reading.instruction decoder.config instruction.encoding 0 none := by
  obtain ⟨reading, hread, hlimit, rfl⟩ := decode_eq_ok_iff.mp h
  obtain ⟨-, hsize, htake⟩ := readCode_take_size hread
  have hlen := Reading.size_instruction hsize decoder.config start base
  refine ⟨reading, htake, hlen.symm, hlimit, ?_, reading.unplaced_instruction _ _ _ _⟩
  rw [hlen]
  rfl

/-- A decode gives the same instruction wherever the bytes of its encoding stand, and from them alone. -/
theorem decode_of_same_bytes (h : decoder.decode image start base = .ok instruction) :
    (∀ (other : List UInt8) (place : Nat) (origin : Option UInt64),
      (other.drop place).take instruction.size = (image.drop start).take instruction.size →
        ∃ again, decoder.decode other place origin = .ok again ∧ again.offset = place ∧
          again.address = origin.map (· + .ofNat place) ∧ again.unplaced = instruction.unplaced ∧
          (again.branchTarget = instruction.branchTarget → again.text = instruction.text)) ∧
      decoder.decode instruction.encoding 0 none = .ok instruction.unplaced := by
  obtain ⟨reading, hread, hsize, hlimit, hbytes, hunplaced⟩ := readCode_encoding h
  constructor
  · intro other place origin hsame
    have hcode : other.drop place =
        instruction.encoding ++ (other.drop place).drop instruction.size := by
      rw [hbytes, ← hsame, List.take_append_drop]
    have hother : decoder.readCode (other.drop place) = .ok reading := by
      rw [hcode]
      exact readCode_append_of_ok hread _
    have hagain : (reading.instruction decoder.config (other.drop place) place origin).unplaced =
        instruction.unplaced := by
      rw [reading.unplaced_instruction, hsize, hsame, ← hbytes, hunplaced]
    exact ⟨_, decode_eq_ok_iff.mpr ⟨reading, hother, hlimit, rfl⟩, rfl, rfl, hagain,
      Instruction.text_eq_of_unplaced hagain⟩
  · exact decode_eq_ok_iff.mpr ⟨reading, hread, hlimit, hunplaced.symm⟩

theorem decode_of_same_bytes_jump : ∃ jump,
    small.decode [0x90, 0x66, 0xEB, 0x02, 0xFF] 1 (some 0x1000) = .ok jump ∧
      jump.branchTarget = some 0x1006 ∧ small.decode [0x66, 0xEB, 0x02] 0 none = .ok jump.unplaced ∧
      ∃ again, small.decode [0xC3, 0xC3, 0x66, 0xEB, 0x02] 2 none = .ok again ∧
        again.unplaced = jump.unplaced := by
  let jump : Instruction := {
    mnemonic := "jmp"
    shape := .transfer .jump (some (.relative 2 (some 0x1006)))
    operands := [.immediate ⟨2, .byte, true⟩]
    encoding := [0x66, 0xEB, 0x02]
    offset := 1
    address := some 0x1001
    prefixes := { operandSize := true } }
  have h : small.decode [0x90, 0x66, 0xEB, 0x02, 0xFF] 1 (some 0x1000) = .ok jump := by decide +kernel
  obtain ⟨again, hagain, -, -, hsame, -⟩ :=
    (decode_of_same_bytes h).1 [0xC3, 0xC3, 0x66, 0xEB, 0x02] 2 none rfl
  exact ⟨jump, h, rfl, (decode_of_same_bytes h).2, again, hagain, hsame⟩

/-- Every cut of an instruction is a truncation, so no encoding begins another one. -/
theorem decode_take_eq_truncated (h : decoder.decode image start base = .ok instruction) :
    (∀ k < instruction.size,
      decoder.decode (image.take (start + k)) start base = .error ⟨start, .truncated k⟩) ∧
    ∀ (other : List UInt8) (place : Nat) (origin : Option UInt64) (shorter : Instruction),
      decoder.decode other place origin = .ok shorter → shorter.encoding <+: instruction.encoding →
        shorter.encoding = instruction.encoding := by
  constructor
  · intro k hk
    obtain ⟨reading, hread, -, rfl⟩ := decode_eq_ok_iff.mp h
    obtain ⟨-, hsize, -⟩ := readCode_take_size hread
    rw [Reading.size_instruction hsize] at hk
    rw [List.length_drop] at hsize
    have hcut : (image.take (start + k)).drop start = (image.drop start).take k := by
      rw [List.drop_take, Nat.add_sub_cancel_left]
    have hlen : ((image.drop start).take k).length = k := by
      rw [List.length_take, List.length_drop]
      omega
    have hin : start ≤ (image.take (start + k)).length := by
      rw [List.length_take]
      omega
    rw [decode_eq_place decoder hin base, hcut, readCode_take_of_lt hread hk, place, hlen]
  · intro other place origin shorter hshorter hprefix
    obtain ⟨reading, hread, hsize, -⟩ := readCode_encoding h
    obtain ⟨least, hleast, hleastSize, -⟩ := readCode_encoding hshorter
    obtain ⟨more, hmore⟩ := hprefix
    have hsame : decoder.readCode instruction.encoding = .ok least := by
      rw [← hmore]
      exact readCode_append_of_ok hleast more
    obtain rfl : reading = least := Except.ok.inj (hread.symm.trans hsame)
    apply List.IsPrefix.eq_of_length ⟨more, hmore⟩
    exact hleastSize.symm.trans hsize

theorem decode_take_eq_truncated_add : ∃ add,
    small.decode [0x90, 0x81, 0x44, 0x8B, 0x04, 1, 2, 3, 4] 1 none = .ok add ∧ add.size = 8 ∧
      small.decode [0x90] 1 none = .error ⟨1, .truncated 0⟩ ∧
      small.decode [0x90, 0x81, 0x44] 1 none = .error ⟨1, .truncated 2⟩ ∧
      small.decode [0x90, 0x81, 0x44, 0x8B, 0x04, 1, 2, 3] 1 none = .error ⟨1, .truncated 7⟩ := by
  let address : MemoryAddress := {
    base := some (.general 3 .dword)
    index := some (.general 1 .dword)
    scale := 4
    displacement := .disp8 4
    segment := none
    addressWidth := .dword }
  let add : Instruction := {
    mnemonic := "add"
    shape := .operation
    operands := [.memory address .dword, .immediate ⟨0x04030201, .dword, false⟩]
    encoding := [0x81, 0x44, 0x8B, 0x04, 1, 2, 3, 4]
    offset := 1
    address := none
    prefixes := {} }
  have h : small.decode [0x90, 0x81, 0x44, 0x8B, 0x04, 1, 2, 3, 4] 1 none = .ok add := by
    decide +kernel
  have hcut := (decode_take_eq_truncated h).1
  exact ⟨add, h, rfl, hcut 0 (by decide), hcut 2 (by decide), hcut 7 (by decide)⟩

end Decoder
end IA32
