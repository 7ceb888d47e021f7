import IA32.Proofs.Tiling

set_option autoImplicit false

namespace IA32

namespace Instruction

def unbased (instruction : Instruction) : Instruction :=
  { instruction with shape := instruction.shape.untargeted, address := none }

theorem toNat_add_ofNat (address : UInt64) (count : Nat) :
    (address + .ofNat count).toNat = (address.toNat + count) % 0x10000000000000000 := by
  rw [UInt64.toNat_add, UInt64.toNat_ofNat']
  omega

theorem toNat_add_ofInt (address : UInt64) (displacement : Int) :
    ((address + .ofInt displacement).toNat : Int) =
      (address.toNat + displacement) % 0x10000000000000000 := by
  have hword : (UInt64.ofInt displacement).toNat = (displacement % 0x10000000000000000).toNat := by
    rw [UInt64.ofInt, UInt64.toNat_ofNat']
    omega
  rw [UInt64.toNat_add, hword]
  omega

theorem map_add_right_comm (address : Option UInt64) (first second : UInt64) :
    (address.map (· + first)).map (· + second) = (address.map (· + second)).map (· + first) := by
  cases address with
  | none => rfl
  | some address =>
    refine congrArg some ?_
    change address + first + second = address + second + first
    ac_rfl

theorem toNat_wrapTarget (width : Width) (target : UInt64) :
    (wrapTarget width target).toNat = if width = .word then target.toNat % 0x10000 else target.toNat := by
  unfold wrapTarget
  split
  · exact UInt64.toNat_mod _ _
  · rfl

theorem toNat_target (width : Width) (base : UInt64) (start size : Nat) (distance : Int) :
    ((wrapTarget width (base + .ofNat start + .ofNat size + .ofInt distance)).toNat : Int) =
      if width = .word then
        (base.toNat + start + size + distance) % 0x10000000000000000 % 0x10000
      else (base.toNat + start + size + distance) % 0x10000000000000000 := by
  have hsum : ((base + .ofNat start + .ofNat size + .ofInt distance).toNat : Int) =
      (base.toNat + start + size + distance) % 0x10000000000000000 := by
    rw [toNat_add_ofInt, toNat_add_ofNat, toNat_add_ofNat]
    omega
  rw [toNat_wrapTarget]
  split
  · rw [← hsum]
    rfl
  · exact hsum

theorem wrapTarget_add (width : Width) (target distance : UInt64) :
    wrapTarget width (wrapTarget width target + distance) = wrapTarget width (target + distance) := by
  rw [← UInt64.toNat_inj, toNat_wrapTarget, toNat_wrapTarget]
  split
  · next hword =>
    rw [UInt64.toNat_add, UInt64.toNat_add, toNat_wrapTarget, if_pos hword]
    omega
  · next hword => rw [wrapTarget, if_neg hword]

variable {found again instruction : Instruction} {kind : InstructionClass} {operands : List Operand}
  {width : Width} {next : Option UInt64}

theorem isCall_of_shape (h : instruction.shape = shapeOf kind operands width next) :
    instruction.isCall = decide (kind = .transfer .call) := by
  unfold isCall
  rw [h]
  cases kind with
  | general => cases operands <;> rfl
  | transfer flow => cases flow <;> rfl

theorem branchTarget_of_relative {flow : Flow} {constant : Immediate} (hflow : flow ≠ .ret)
    (h : instruction.shape = shapeOf (.transfer flow) [.immediate constant] width next) :
    instruction.shape = .transfer flow (some (.relative constant.value instruction.branchTarget)) ∧
      instruction.branchTarget =
        next.map fun address => wrapTarget width (address + .ofInt constant.value) := by
  unfold branchTarget
  rw [h]
  cases flow with
  | ret => contradiction
  | jump | conditionalJump | call => exact ⟨rfl, rfl⟩

theorem branchTarget_of_indirect {flow : Flow} {operand : Operand}
    (hoperand : ∀ constant, operand ≠ .immediate constant)
    (h : instruction.shape = shapeOf (.transfer flow) [operand] width next) :
    instruction.branchTarget = none := by
  unfold branchTarget
  rw [h]
  cases operand with
  | immediate constant => exact absurd rfl (hoperand constant)
  | register | memory => cases flow <;> rfl

theorem branchTarget_of_nowhere (hkind : kind = .general ∨ kind = .transfer .ret)
    (h : instruction.shape = shapeOf kind operands width next) : instruction.branchTarget = none := by
  unfold branchTarget
  rw [h]
  rcases hkind with rfl | rfl
  · cases operands <;> rfl
  · rfl

/-- A target moves with the address behind the instruction. -/
theorem branchTarget_moved (distance : UInt64)
    (hfound : found.shape = shapeOf kind operands width next)
    (hagain : again.shape = shapeOf kind operands width (next.map (· + distance))) :
    again.branchTarget = found.branchTarget.map fun target => wrapTarget width (target + distance) := by
  unfold branchTarget
  rw [hfound, hagain]
  have hmoved : ∀ (address : UInt64) (displacement : Int),
      wrapTarget width (address + distance + .ofInt displacement) =
        wrapTarget width (wrapTarget width (address + .ofInt displacement) + distance) := by
    intro address displacement
    rw [wrapTarget_add]
    ac_rfl
  cases kind with
  | general => cases operands <;> rfl
  | transfer flow =>
    cases flow with
    | ret => rfl
    | jump | conditionalJump | call =>
      rcases operands with _ | ⟨_ | constant | _, _⟩
      · rfl
      · rfl
      · cases next with
        | none => rfl
        | some address => exact congrArg some (hmoved address constant.value)
      · rfl

end Instruction

/-- Only a jump or a call has a relative operand, and then no other. -/
theorem InstructionClass.operands_cases {kind : InstructionClass} {specs : List OperandSpec}
    (h : kind.defect? specs = none) :
    (∃ flow type, kind = .transfer flow ∧ flow ≠ .ret ∧ specs = [⟨.relative, type⟩]) ∨
      (∃ flow form type, kind = .transfer flow ∧ flow ≠ .ret ∧ specs = [⟨.rm form, type⟩]) ∨
      (kind = .general ∨ kind = .transfer .ret) ∧ ∀ type, specs ≠ [⟨.relative, type⟩] := by
  cases kind with
  | general =>
    refine .inr (.inr ⟨.inl rfl, ?_⟩)
    rintro type rfl
    contradiction
  | transfer flow =>
    cases flow with
    | ret =>
      refine .inr (.inr ⟨.inr rfl, ?_⟩)
      rintro type rfl
      contradiction
    | jump | conditionalJump | call =>
      rcases specs with _ | ⟨⟨mode, type⟩, _ | _⟩
      · contradiction
      · cases mode with
        | relative => exact .inl ⟨_, type, rfl, Flow.noConfusion, rfl⟩
        | rm form => exact .inr (.inl ⟨_, form, type, rfl, Flow.noConfusion, rfl⟩)
        | reg | immediate | opcodeRegister | fixedRegister | one | offset => contradiction
      · contradiction

theorem Descriptor.kind_defect {descriptor : Descriptor} (h : descriptor.defect? = none) :
    descriptor.kind.defect? descriptor.operands = none := by
  unfold defect? at h
  split at h
  · contradiction
  split at h
  · contradiction
  split at h
  · contradiction
  split at h
  · contradiction
  · exact h

namespace Operand

open Reader

variable {context : Context} {opcode : UInt8} {modeByte : Option ModeByte} {type : OperandType}
  {tail rest : List UInt8} {operands : List Operand}

theorem readAll_relative
    (h : (readAll context opcode modeByte [⟨.relative, type⟩]).run tail = .ok (operands, rest)) :
    (context.encodedWidth type).bytes ≤ tail.length ∧
      operands = [.immediate (.signed (littleEndian (tail.take (context.encodedWidth type).bytes))
        (context.encodedWidth type))] ∧
      rest = tail.drop (context.encodedWidth type).bytes := by
  change (take (context.encodedWidth type).bytes fun bytes => done [.immediate (.signed
    (littleEndian bytes) (context.encodedWidth type))] : Reader (List Operand)).run tail = _ at h
  by_cases henough : (context.encodedWidth type).bytes ≤ tail.length
  · rw [run_take_of_le henough] at h
    obtain ⟨rfl, rfl⟩ := Prod.mk.inj (Except.ok.inj h)
    exact ⟨henough, rfl, rfl⟩
  · rw [run_take_of_lt (by omega)] at h
    contradiction

theorem ensures_readRm (byte : ModeByte) (form : OperandForm) (width : Width) :
    Ensures (readRm context byte form width) fun operand => ∀ constant, operand ≠ .immediate constant := by
  unfold readRm
  split
  · split
    · exact ensures_invalid _
    · exact ensures_pure fun _ => Operand.noConfusion
  · split
    · exact ensures_invalid _
    · exact ensures_bind (ensures_trivial _) fun _ _ => ensures_pure fun _ => Operand.noConfusion

theorem ensures_readAll_rm (form : OperandForm) :
    Ensures (readAll context opcode modeByte [⟨.rm form, type⟩]) fun operands =>
      ∃ operand, operands = [operand] ∧ ∀ constant, operand ≠ .immediate constant := by
  have hfirst : Ensures (readFirstRm context modeByte [⟨.rm form, type⟩]) fun rm =>
      ∃ operand, rm = some operand ∧ ∀ constant, operand ≠ .immediate constant :=
    ensures_bind (ensures_trivial _) fun byte _ =>
      ensures_bind (ensures_readRm byte form _) fun operand hoperand =>
        ensures_pure ⟨operand, rfl, hoperand⟩
  refine ensures_bind hfirst ?_
  rintro _ ⟨operand, rfl, hoperand⟩
  exact ensures_pure ⟨operand, rfl, hoperand⟩

end Operand

theorem Reading.instruction_none (reading : Reading) (config : Config) (code : List UInt8)
    (start : Nat) (base : Option UInt64) :
    reading.instruction config code start none =
      (reading.instruction config code start base).unbased := by
  have hshape := Instruction.shapeOf_untargeted reading.body.selection.descriptor.kind
    reading.body.operands (config.operandWidth reading.prefixes)
    ((base.map (· + .ofNat start)).map (· + .ofNat reading.size))
  unfold Instruction.unbased instruction
  simp only [hshape, Option.map_none]

/-- The addresses of an instruction that its descriptor asks for, in an image whose first byte is at `base`. -/
structure Instruction.Addressed (instruction : Instruction) (descriptor : Descriptor) (width : Width)
    (base : UInt64) : Prop where
  address : ∃ address, instruction.address = some address ∧
    address.toNat = (base.toNat + instruction.offset) % 0x10000000000000000
  nextAddress : ∃ address, instruction.nextAddress = some address ∧
    address.toNat = (base.toNat + instruction.nextOffset) % 0x10000000000000000
  hasTarget : instruction.branchTarget.isSome = true ↔
    ∃ type, descriptor.operands = [⟨.relative, type⟩]
  /-- The distance is the signed number in the last bytes of the encoding, of whatever width that is; the
  wrap is a matter of the operand size. -/
  branchTarget : ∀ target, instruction.branchTarget = some target → ∃ flow distance field,
    instruction.shape = .transfer flow (some (.relative distance (some target))) ∧
    instruction.operands = [.immediate ⟨distance, field, true⟩] ∧
    distance = Int.bmod (Reader.littleEndian
      (instruction.encoding.drop (instruction.size - field.bytes))) field.modulus ∧
    (target.toNat : Int) =
      if width = .word then
        (base.toNat + instruction.offset + instruction.size + distance) % 0x10000000000000000 % 0x10000
      else (base.toNat + instruction.offset + instruction.size + distance) % 0x10000000000000000
  returnAddress : instruction.returnAddress =
    if descriptor.kind = .transfer .call then instruction.nextAddress else none

structure Instruction.Addressless (instruction : Instruction) : Prop where
  address : instruction.address = none
  nextAddress : instruction.nextAddress = none
  branchTarget : instruction.branchTarget = none
  returnAddress : instruction.returnAddress = none

structure Instruction.MovedBy (again found : Instruction) (width : Width) (distance : UInt64) :
    Prop where
  unbased : again.unbased = found.unbased
  address : again.address = found.address.map (· + distance)
  nextAddress : again.nextAddress = found.nextAddress.map (· + distance)
  returnAddress : again.returnAddress = found.returnAddress.map (· + distance)
  branchTarget : again.branchTarget =
    found.branchTarget.map fun target => Instruction.wrapTarget width (target + distance)

theorem Instruction.addressless_unbased (instruction : Instruction) : instruction.unbased.Addressless where
  address := rfl
  nextAddress := rfl
  branchTarget := by
    unfold unbased branchTarget
    rcases instruction.shape with _ | _ | ⟨_, _ | _ | _⟩ <;> rfl
  returnAddress := by
    unfold returnAddress
    split <;> rfl

theorem Reading.shape_instruction (reading : Reading) (config : Config) (code : List UInt8)
    (start : Nat) (base : Option UInt64) :
    (reading.instruction config code start base).shape =
      Instruction.shapeOf reading.body.selection.descriptor.kind reading.body.operands
        (config.operandWidth reading.prefixes)
        ((base.map (· + .ofNat start)).map (· + .ofNat reading.size)) := rfl

theorem Reading.movedBy (reading : Reading) (config : Config) (code : List UInt8) (start : Nat)
    (base distance : UInt64) :
    (reading.instruction config code start (some (base + distance))).MovedBy
      (reading.instruction config code start (some base)) (config.operandWidth reading.prefixes)
      distance := by
  have hunbased := (reading.instruction_none config code start (some (base + distance))).symm.trans
    (reading.instruction_none config code start (some base))
  have haddress : (some (base + distance)).map (· + .ofNat start) =
      ((some base).map (· + .ofNat start)).map (· + distance) :=
    Instruction.map_add_right_comm (some base) distance (.ofNat start)
  have hshape := reading.shape_instruction config code start (some base)
  have hmoved := reading.shape_instruction config code start (some (base + distance))
  rw [haddress, Instruction.map_add_right_comm] at hmoved
  have hnextAddress : (reading.instruction config code start (some (base + distance))).nextAddress =
      (reading.instruction config code start (some base)).nextAddress.map (· + distance) := by
    unfold Instruction.nextAddress
    rw [Instruction.map_add_right_comm]
    exact congrArg (Option.map _) haddress
  refine {
    unbased := hunbased
    address := haddress
    nextAddress := hnextAddress
    returnAddress := ?_
    branchTarget := Instruction.branchTarget_moved distance hshape hmoved }
  unfold Instruction.returnAddress
  rw [Instruction.isCall_of_shape hshape, Instruction.isCall_of_shape hmoved, hnextAddress]
  split <;> rfl

namespace Decoder

variable {decoder : Decoder} {image code tail : List UInt8} {start : Nat} {base : Option UInt64}
  {instruction : Instruction} {reading : Reading} {descriptor : Descriptor} {width : Width}
  {next : Option UInt64}

def SelectsAt (decoder : Decoder) (image : List UInt8) (start : Nat) (descriptor : Descriptor) : Prop :=
  ∃ modeByte tail,
    decoder.table.Reaches ((image.drop start).dropWhile Prefix.isByte) modeByte descriptor tail

theorem decode_none (decoder : Decoder) (image : List UInt8) (start : Nat) (base : Option UInt64) :
    decoder.decode image start none = (decoder.decode image start base).map Instruction.unbased := by
  by_cases hstart : start ≤ image.length
  · rw [decode_eq_place decoder hstart, decode_eq_place decoder hstart]
    rcases decoder.readCode (image.drop start) with (_ | reason) | reading
    · rfl
    · rfl
    · unfold place
      simp only [reading.instruction_none decoder.config _ start base]
      split <;> rfl
  · rw [decode_of_outside decoder (by omega), decode_of_outside decoder (by omega)]
    rfl

theorem relative_of_readCode {modeByte : Option ModeByte} {type : OperandType}
    (h : decoder.readCode code = .ok reading)
    (hreach : decoder.table.Reaches (code.dropWhile Prefix.isByte) modeByte descriptor tail)
    (hspec : descriptor.operands = [⟨.relative, type⟩]) :
    ∃ distance field, reading.body.operands = [.immediate ⟨distance, field, true⟩] ∧
      distance = Int.bmod (Reader.littleEndian
        ((code.take reading.size).drop (reading.size - field.bytes))) field.modulus := by
  obtain ⟨key, operands, front, rest, hbody, hread, rfl, hlen⟩ := readAll_of_readCode h hreach
  rw [hspec] at hread
  obtain ⟨henough, rfl, rfl⟩ := Operand.readAll_relative hread
  generalize (decoder.config.context reading.prefixes).encodedWidth type = field at *
  have hsize : reading.size = front.length + field.bytes := by
    rw [List.length_append, List.length_drop] at hlen
    omega
  have hfield : ((front ++ tail).take reading.size).drop (reading.size - field.bytes) =
      tail.take field.bytes := by
    rw [hsize, List.take_length_add_append, Nat.add_sub_cancel, List.drop_left]
  refine ⟨_, field, congrArg Body.operands hbody, ?_⟩
  rw [hfield]

/-- Either the descriptor has a relative operand and the target follows from it, or there is no target. -/
theorem target_of_readCode (hsound : decoder.table.Sound) {modeByte : Option ModeByte}
    (h : decoder.readCode code = .ok reading)
    (hreach : decoder.table.Reaches (code.dropWhile Prefix.isByte) modeByte descriptor tail)
    (hshape : instruction.shape = Instruction.shapeOf descriptor.kind reading.body.operands width next) :
    (∃ flow type distance field, descriptor.operands = [⟨.relative, type⟩] ∧
      instruction.shape = .transfer flow (some (.relative distance instruction.branchTarget)) ∧
      reading.body.operands = [.immediate ⟨distance, field, true⟩] ∧
      distance = Int.bmod (Reader.littleEndian
        ((code.take reading.size).drop (reading.size - field.bytes))) field.modulus ∧
      instruction.branchTarget =
        next.map fun address => Instruction.wrapTarget width (address + .ofInt distance)) ∨
    instruction.branchTarget = none ∧ ∀ type, descriptor.operands ≠ [⟨.relative, type⟩] := by
  obtain ⟨key, operands, _, rest, hbody, hread, -⟩ := readAll_of_readCode h hreach
  obtain ⟨_, map, opcode, _, -, -, hselects, -⟩ := id hreach
  rcases InstructionClass.operands_cases (Descriptor.kind_defect (hselects.defect hsound)) with
    ⟨flow, type, hkind, hflow, hspec⟩ | ⟨flow, form, type, hkind, hflow, hspec⟩ | ⟨hkind, hspec⟩
  · obtain ⟨distance, field, hoperands, hdistance⟩ := relative_of_readCode h hreach hspec
    rw [hkind, hoperands] at hshape
    obtain ⟨hrelative, htarget⟩ := Instruction.branchTarget_of_relative hflow hshape
    exact .inl ⟨flow, type, distance, field, hspec, hrelative, hoperands, hdistance, htarget⟩
  · rw [hspec] at hread
    obtain ⟨operand, rfl, hoperand⟩ := Operand.ensures_readAll_rm form tail _ hread
    rw [hkind, hbody] at hshape
    refine .inr ⟨Instruction.branchTarget_of_indirect hoperand hshape, ?_⟩
    rw [hspec]
    simp
  · exact .inr ⟨Instruction.branchTarget_of_nowhere hkind hshape, hspec⟩

theorem addressed_of_decode (hsound : decoder.table.Sound) {base : UInt64}
    (h : decoder.decode image start (some base) = .ok instruction)
    (hselects : decoder.SelectsAt image start descriptor) :
    instruction.Addressed descriptor (decoder.config.operandWidth instruction.prefixes) base := by
  have haddress := address_of_decode h
  have hnext := nextAddress_of_decode h
  have hoffset := offset_of_decode h
  obtain ⟨modeByte, tail, hreach⟩ := hselects
  obtain ⟨reading, hread, -, hinstruction⟩ := decode_eq_ok_iff.mp h
  obtain ⟨-, hsize, -⟩ := readCode_take_size hread
  have hlen := reading.size_instruction hsize decoder.config start (some base)
  have hshape : instruction.shape = Instruction.shapeOf descriptor.kind reading.body.operands
      (decoder.config.operandWidth instruction.prefixes)
      (some (base + .ofNat start + .ofNat reading.size)) := by
    obtain ⟨_, _, _, _, hbody, -⟩ := readAll_of_readCode hread hreach
    rw [← hinstruction, reading.shape_instruction, hbody]
    rfl
  have hfirst := Instruction.toNat_add_ofNat base start
  rw [← hoffset] at hfirst haddress
  have hbehind := Instruction.toNat_add_ofNat base instruction.nextOffset
  have hreturn : instruction.returnAddress =
      if descriptor.kind = .transfer .call then instruction.nextAddress else none := by
    rw [Instruction.returnAddress, Instruction.isCall_of_shape hshape]
    simp only [decide_eq_true_eq]
  rcases target_of_readCode hsound hread hreach hshape with
    ⟨flow, type, distance, field, hspec, hrelative, hoperands, hdistance, htarget⟩ | ⟨hnone, hother⟩
  · have hsome : instruction.branchTarget.isSome = true := by
      rw [htarget]
      rfl
    refine ⟨⟨_, haddress, hfirst⟩, ⟨_, hnext, hbehind⟩, iff_of_true hsome ⟨type, hspec⟩, ?_, hreturn⟩
    intro target heq
    rw [heq] at hrelative htarget
    refine ⟨flow, distance, field, hrelative, ?_, ?_, ?_⟩
    · rw [← hoperands, ← hinstruction]
      rfl
    · rw [hdistance, encoding_of_decode h, ← hinstruction, hlen]
    · rw [Option.some.inj htarget, hoffset, ← hinstruction, hlen]
      exact Instruction.toNat_target _ base start reading.size distance
  · have hsome : ¬ instruction.branchTarget.isSome = true := by simp [hnone]
    refine ⟨⟨_, haddress, hfirst⟩, ⟨_, hnext, hbehind⟩, iff_of_false hsome ?_, ?_, hreturn⟩
    · rintro ⟨type, hspec⟩
      exact hother type hspec
    · intro target heq
      rw [hnone] at heq
      contradiction

/-- The base of an image decides nothing of an instruction but its addresses, and those move with it. -/
theorem decode_base (calls : List (OpcodeKey × Descriptor)) (config : Config) (image : List UInt8)
    (start : Nat) :
    (∀ base, (Decoder.mk (.ofCalls calls) config).decode image start none =
      ((Decoder.mk (.ofCalls calls) config).decode image start base).map Instruction.unbased) ∧
    (∀ instruction, (Decoder.mk (.ofCalls calls) config).decode image start none = .ok instruction →
      instruction.Addressless) ∧
    ∀ base instruction,
      (Decoder.mk (.ofCalls calls) config).decode image start (some base) = .ok instruction →
      (∃ descriptor, (Decoder.mk (.ofCalls calls) config).SelectsAt image start descriptor) ∧
      (∀ descriptor, (Decoder.mk (.ofCalls calls) config).SelectsAt image start descriptor →
        instruction.Addressed descriptor (config.operandWidth instruction.prefixes) base) ∧
      ∀ distance, ∃ again,
        (Decoder.mk (.ofCalls calls) config).decode image start (some (base + distance)) = .ok again ∧
          again.MovedBy instruction (config.operandWidth instruction.prefixes) distance := by
  have hsound : (Decoder.mk (.ofCalls calls) config).table.Sound := Table.sound_ofCalls calls
  refine ⟨decode_none _ image start, fun instruction h => ?_, fun base instruction h => ⟨?_, ?_, ?_⟩⟩
  · rw [decode_none _ image start none] at h
    obtain ⟨found, -, rfl⟩ := map_eq_ok_iff.mp h
    exact found.addressless_unbased
  · obtain ⟨reading, hread, -⟩ := decode_eq_ok_iff.mp h
    obtain ⟨modeByte, descriptor, tail, hreach⟩ := exists_reaches_of_readCode hsound hread
    exact ⟨descriptor, modeByte, tail, hreach⟩
  · intro descriptor hselects
    exact addressed_of_decode hsound h hselects
  · intro distance
    obtain ⟨reading, hread, hlimit, rfl⟩ := decode_eq_ok_iff.mp h
    exact ⟨_, decode_eq_ok_iff.mpr ⟨reading, hread, hlimit, rfl⟩,
      reading.movedBy config _ start base distance⟩

theorem decode_base_jump : ∃ jump again : Instruction,
    small.decode [0x90, 0xEB, 0x02] 1 (some 0xFFFFFFFFFFFFFFFC) = .ok jump ∧
      jump.branchTarget = some 1 ∧
      (∃ descriptor, small.SelectsAt [0x90, 0xEB, 0x02] 1 descriptor ∧
        jump.Addressed descriptor .dword 0xFFFFFFFFFFFFFFFC) ∧
      small.decode [0x90, 0xEB, 0x02] 1 none = .ok jump.unbased ∧
      small.decode [0x90, 0xEB, 0x02] 1 (some 4) = .ok again ∧ again.branchTarget = some 9 := by
  let jump : Instruction := {
    mnemonic := "jmp"
    shape := .transfer .jump (some (.relative 2 (some 1)))
    operands := [.immediate ⟨2, .byte, true⟩]
    encoding := [0xEB, 0x02]
    offset := 1
    address := some 0xFFFFFFFFFFFFFFFD
    prefixes := {} }
  have h : small.decode [0x90, 0xEB, 0x02] 1 (some 0xFFFFFFFFFFFFFFFC) = .ok jump := by decide +kernel
  obtain ⟨hnone, -, hsome⟩ := decode_base _ {} [0x90, 0xEB, 0x02] 1
  obtain ⟨⟨descriptor, hselects⟩, haddressed, hmoves⟩ := hsome 0xFFFFFFFFFFFFFFFC jump h
  obtain ⟨again, hagain, hmoved⟩ := hmoves 8
  have hunbased := (hnone (some 0xFFFFFFFFFFFFFFFC)).trans (congrArg (Except.map _) h)
  exact ⟨jump, again, h, rfl, ⟨descriptor, hselects, haddressed descriptor hselects⟩, hunbased, hagain,
    hmoved.branchTarget⟩

end Decoder
end IA32
