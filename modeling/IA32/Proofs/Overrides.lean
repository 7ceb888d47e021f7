import IA32.Proofs.Locality

set_option autoImplicit false

namespace IA32

def Context.withSegment (segment : Option Segment) (context : Context) : Context :=
  { context with segment }

def MemoryAddress.withSegment (segment : Option Segment) (address : MemoryAddress) :
    MemoryAddress :=
  { address with segment }

def Operand.withSegment (segment : Option Segment) : Operand → Operand
  | .memory address width => .memory (address.withSegment segment) width
  | operand => operand

def Destination.withSegment (segment : Option Segment) : Destination → Destination
  | .indirect operand => .indirect (operand.withSegment segment)
  | destination => destination

def Shape.withSegment (segment : Option Segment) : Shape → Shape
  | .transfer flow destination => .transfer flow (destination.map (Destination.withSegment segment))
  | shape => shape

def Body.withSegment (segment : Option Segment) (body : Body) : Body :=
  { body with operands := body.operands.map (Operand.withSegment segment) }

variable {context : Context} {segment : Option Segment}

namespace MemoryAddress

theorem make?_withSegment (base index : Option Register) (scale : Nat) (displacement : Displacement)
    (segment other : Option Segment) (width : Width) :
    make? base index scale displacement segment width =
      (make? base index scale displacement other width).map (withSegment segment) := by
  unfold make?
  split
  · rfl
  · split <;> rfl

theorem complete_withSegment (width : Width) (base index : Option Register) (scale : Nat)
    (displacement : Displacement) :
    complete (context.withSegment segment) width base index scale displacement =
      withSegment segment <$> complete context width base index scale displacement := by
  unfold complete
  rw [make?_withSegment base index scale displacement _ context.segment width]
  cases make? base index scale displacement context.segment width <;> rfl

theorem readScaled_withSegment (mode : Mode) :
    readScaled (context.withSegment segment) mode =
      withSegment segment <$> readScaled context mode := by
  unfold readScaled
  simp only [map_bind, apply_ite (withSegment segment <$> ·), complete_withSegment]

theorem read32_withSegment (byte : ModeByte) :
    read32 (context.withSegment segment) byte = withSegment segment <$> read32 context byte := by
  unfold read32
  simp only [map_bind, apply_ite (withSegment segment <$> ·), complete_withSegment, readScaled_withSegment]
  rfl

theorem read16_withSegment (byte : ModeByte) :
    read16 (context.withSegment segment) byte = withSegment segment <$> read16 context byte := by
  unfold read16
  simp only [map_bind, apply_ite (withSegment segment <$> ·), complete_withSegment]

theorem read_withSegment (byte : ModeByte) :
    read (context.withSegment segment) byte = withSegment segment <$> read context byte := by
  have hwidth : (context.withSegment segment).addressWidth = context.addressWidth := rfl
  unfold read
  rw [hwidth]
  cases context.addressWidth with
  | word => exact read16_withSegment byte
  | byte | dword => exact read32_withSegment byte

end MemoryAddress

namespace Operand

theorem readRm_withSegment (byte : ModeByte) (form : OperandForm) (width : Width) :
    readRm (context.withSegment segment) byte form width =
      withSegment segment <$> readRm context byte form width := by
  unfold readRm
  rw [MemoryAddress.read_withSegment]
  split
  · split <;> rfl
  · split
    · rfl
    · simp only [map_bind, bind_map_left, map_pure]
      rfl

theorem readValue_withSegment (spec : OperandSpec) :
    readValue (context.withSegment segment) spec =
      withSegment segment <$> readValue context spec := by
  unfold readValue
  cases spec.mode with
  | immediate | relative =>
    simp only [map_bind, map_pure]
    rfl
  | offset =>
    have hmake := fun displacement => MemoryAddress.make?_withSegment none none 1 displacement
      segment context.segment context.addressWidth
    simp only [map_bind, Context.withSegment, hmake]
    refine congrArg (Reader.bind _) (funext fun displacement => ?_)
    cases MemoryAddress.make? none none 1 displacement context.segment context.addressWidth <;> rfl
  | rm | reg | opcodeRegister | fixedRegister | one => rfl

variable {opcode : UInt8} {modeByte : Option ModeByte}

theorem readFirstRm_withSegment (specs : List OperandSpec) :
    readFirstRm (context.withSegment segment) modeByte specs =
      Option.map (withSegment segment) <$> readFirstRm context modeByte specs := by
  induction specs with
  | nil => rfl
  | cons spec specs ih =>
    unfold readFirstRm
    cases spec.mode with
    | rm form =>
      simp only [map_bind, map_pure, readRm_withSegment, bind_map_left]
      rfl
    | reg | immediate | relative | opcodeRegister | fixedRegister | one | offset => exact ih

theorem readPlain_withSegment (spec : OperandSpec) :
    readPlain (context.withSegment segment) opcode modeByte spec =
      withSegment segment <$> readPlain context opcode modeByte spec := by
  unfold readPlain
  cases spec.mode with
  | reg =>
    simp only [map_bind, map_pure]
    rfl
  | opcodeRegister | fixedRegister | one => rfl
  | rm | immediate | relative | offset => exact readValue_withSegment spec

theorem readAround_withSegment (rm : Option Operand) (specs : List OperandSpec) :
    readAround (context.withSegment segment) opcode modeByte (rm.map (withSegment segment)) specs =
      List.map (withSegment segment) <$> readAround context opcode modeByte rm specs := by
  induction specs generalizing rm with
  | nil => cases rm <;> rfl
  | cons spec specs ih =>
    unfold readAround
    split
    · cases rm with
      | none => rfl
      | some operand =>
        have hrest : readAround (context.withSegment segment) opcode modeByte none specs =
          List.map (withSegment segment) <$> readAround context opcode modeByte none specs := ih none
        simp only [Option.map_some, hrest, map_bind, map_pure, bind_map_left, List.map_cons]
    · simp only [readPlain_withSegment, ih, map_bind, map_pure, bind_map_left, List.map_cons]

theorem readAll_withSegment (specs : List OperandSpec) :
    readAll (context.withSegment segment) opcode modeByte specs =
      List.map (withSegment segment) <$> readAll context opcode modeByte specs := by
  unfold readAll
  simp only [readFirstRm_withSegment, map_bind, bind_map_left, readAround_withSegment]

end Operand

theorem Table.readBody_withSegment (table : Table) :
    table.readBody (context.withSegment segment) =
      Body.withSegment segment <$> table.readBody context := by
  unfold readBody
  simp only [Operand.readAll_withSegment, map_bind, bind_map_left, map_pure]
  rfl

namespace Instruction

theorem destination_withSegment (width : Width) (next : Option UInt64) (operand : Operand) :
    destination width next (operand.withSegment segment) =
      (destination width next operand).withSegment segment := by
  cases operand <;> rfl

theorem shapeOf_withSegment (kind : InstructionClass) (operands : List Operand) (width : Width)
    (next : Option UInt64) :
    shapeOf kind (operands.map (Operand.withSegment segment)) width next =
      (shapeOf kind operands width next).withSegment segment := by
  cases kind with
  | general => cases operands <;> rfl
  | transfer flow =>
    have hhead : (operands.map (Operand.withSegment segment)).head?.map (destination width next) =
        (operands.head?.map (destination width next)).map (Destination.withSegment segment) := by
      rw [List.head?_map, Option.map_map, Option.map_map]
      exact congrArg (operands.head?.map ·) (funext (destination_withSegment width next))
    cases flow with
    | ret => rfl
    | jump | conditionalJump | call => exact congrArg (Shape.transfer _) hhead

/-- The instruction with these prefixes in front of it: the run is part of its bytes, the prefixes are those
of the run, and the last segment byte of the run is the segment of every address. -/
def prefixed (run : List UInt8) (instruction : Instruction) : Instruction :=
  { instruction with
    shape := instruction.shape.withSegment (PrefixState.lastSegment run)
    operands := instruction.operands.map (Operand.withSegment (PrefixState.lastSegment run))
    encoding := run ++ instruction.encoding
    prefixes := PrefixState.ofRun run }

theorem size_prefixed (run : List UInt8) (instruction : Instruction) :
    (instruction.prefixed run).size = run.length + instruction.size := List.length_append

theorem unplaced_prefixed (run : List UInt8) (instruction : Instruction) :
    (instruction.prefixed run).unplaced = instruction.unplaced.prefixed run := by
  have hshape : ∀ shape : Shape,
      (shape.withSegment (PrefixState.lastSegment run)).untargeted =
        shape.untargeted.withSegment (PrefixState.lastSegment run) := by
    intro shape
    cases shape with
    | noOperand | operation => rfl
    | transfer flow destination =>
      rcases destination with _ | _ | _ <;> rfl
  unfold unplaced prefixed
  simp only [hshape]

end Instruction

def PrefixState.overrides (run : List UInt8) : PrefixState :=
  { operandSize := decide (0x66 ∈ run), addressSize := decide (0x67 ∈ run) }

theorem PrefixState.overrides_congr {run other : List UInt8}
    (hoperand : 0x66 ∈ run ↔ 0x66 ∈ other) (haddress : 0x67 ∈ run ↔ 0x67 ∈ other) :
    overrides run = overrides other := by
  unfold overrides
  simp only [hoperand, haddress]

namespace Config

theorem operandWidth_ofRun (config : Config) (run : List UInt8) :
    config.operandWidth (PrefixState.ofRun run) =
      config.operandWidth (PrefixState.overrides run) := by
  unfold operandWidth
  rw [PrefixState.operandSize_ofRun]
  rfl

theorem context_ofRun (config : Config) (run : List UInt8) :
    config.context (PrefixState.ofRun run) =
      (config.context (PrefixState.overrides run)).withSegment (PrefixState.lastSegment run) := by
  unfold context addressWidth
  rw [operandWidth_ofRun, PrefixState.addressSize_ofRun, PrefixState.segment_ofRun]
  rfl

end Config

namespace Decoder

/-- What a decode comes to behind so many prefix bytes with these overrides, before the prefixes are told. -/
def decodeBehind (decoder : Decoder) (overrides : PrefixState) (count : Nat) (rest : List UInt8)
    (start : Nat) (base : Option UInt64) : Except DecodeError Instruction :=
  match (decoder.table.readBody (decoder.config.context overrides)).run rest with
  | .error .endOfCode => .error ⟨start, .truncated (count + rest.length)⟩
  | .error (.fault reason) => .error ⟨start, reason.cause⟩
  | .ok read =>
    let size := rest.length - read.2.length
    if count + size > decoder.config.lengthLimit then
      .error ⟨start, .tooLong decoder.config.lengthLimit⟩
    else
      .ok { (Reading.mk overrides read.1 (count + size)).instruction decoder.config rest start base with
        encoding := rest.take size }

variable {decoder : Decoder} {run other front back rest : List UInt8} {base origin : Option UInt64}

theorem decode_run_append (decoder : Decoder) (front : List UInt8)
    (hrun : ∀ byte ∈ run, Prefix.isByte byte = true)
    (hrest : ∀ byte, rest.head? = some byte → Prefix.isByte byte = false) (base : Option UInt64) :
    decoder.decode (front ++ (run ++ rest)) front.length base =
      (decoder.decodeBehind (PrefixState.overrides run) run.length rest front.length base).map
        (Instruction.prefixed run) := by
  have hdrop : (front ++ (run ++ rest)).drop front.length = run ++ rest := List.drop_left
  obtain ⟨htake, hbehind⟩ := PrefixState.takeWhile_run_append_of_head hrun hrest
  rw [decode_eq_place decoder (by simp) base, hdrop, readCode, htake, hbehind, readBehind,
    decoder.config.context_ofRun, Table.readBody_withSegment, Reader.run_map, decodeBehind]
  rcases (decoder.table.readBody (decoder.config.context (PrefixState.overrides run))).run rest with
    (_ | reason) | read
  · rw [← List.length_append]
    rfl
  · rfl
  · simp only [Except.map, place]
    split
    · rfl
    · have henc : (run ++ rest).take (run.length + (rest.length - read.2.length)) =
          run ++ rest.take (rest.length - read.2.length) := List.take_length_add_append _
      unfold Reading.instruction Instruction.prefixed
      simp only [Body.withSegment, Instruction.shapeOf_withSegment, henc, Config.operandWidth_ofRun]

/-- Where an instruction stands, and how many prefixes it has, shows in nothing but its place. -/
theorem unplaced_decodeBehind {overrides : PrefixState} {count length start place : Nat}
    {bare least : Instruction}
    (h : decoder.decodeBehind overrides count rest start base = .ok bare)
    (hleast : decoder.decodeBehind overrides length rest place origin = .ok least) :
    bare.unplaced = least.unplaced := by
  unfold decodeBehind at h hleast
  rcases hrun : (decoder.table.readBody (decoder.config.context overrides)).run rest with
    (_ | reason) | read
  · rw [hrun] at h
    contradiction
  · rw [hrun] at h
    contradiction
  · simp only [hrun] at h hleast
    split at h
    · contradiction
    split at hleast
    · contradiction
    · obtain ⟨⟩ := h
      obtain ⟨⟩ := hleast
      unfold Instruction.unplaced Reading.instruction
      simp only [Instruction.shapeOf_untargeted]

/-- Two prefix runs with the same overrides decode alike: to the same outcome if they are equally long, but
for the prefixes that are told, and otherwise to the same instruction if both come to one. -/
theorem decode_of_overrides (calls : List (OpcodeKey × Descriptor)) (config : Config)
    {run other rest : List UInt8} (hrun : ∀ byte ∈ run, Prefix.isByte byte = true)
    (hother : ∀ byte ∈ other, Prefix.isByte byte = true)
    (hoperand : 0x66 ∈ run ↔ 0x66 ∈ other) (haddress : 0x67 ∈ run ↔ 0x67 ∈ other)
    (hrest : ∀ byte, rest.head? = some byte → Prefix.isByte byte = false)
    (front back : List UInt8) (base origin : Option UInt64) :
    (run.length = other.length → front.length = back.length → ∃ outcome : Except DecodeError Instruction,
      (Decoder.mk (.ofCalls calls) config).decode (front ++ (run ++ rest)) front.length base =
          outcome.map (Instruction.prefixed run) ∧
        (Decoder.mk (.ofCalls calls) config).decode (back ++ (other ++ rest)) back.length base =
          outcome.map (Instruction.prefixed other)) ∧
    ∀ found again,
      (Decoder.mk (.ofCalls calls) config).decode (front ++ (run ++ rest)) front.length base =
        .ok found →
      (Decoder.mk (.ofCalls calls) config).decode (back ++ (other ++ rest)) back.length origin =
        .ok again →
      ∃ bare : Instruction, found.unplaced = bare.prefixed run ∧ again.unplaced = bare.prefixed other ∧
        found.size = run.length + bare.size ∧ again.size = other.length + bare.size := by
  have hsame := PrefixState.overrides_congr hoperand haddress
  generalize Decoder.mk (.ofCalls calls) config = decoder
  constructor
  · intro hlength hplace
    refine ⟨_, decode_run_append decoder front hrun hrest base, ?_⟩
    rw [hsame, hlength, hplace]
    exact decode_run_append decoder back hother hrest base
  · intro found again hfound hagain
    rw [decode_run_append decoder front hrun hrest] at hfound
    rw [decode_run_append decoder back hother hrest, ← hsame] at hagain
    obtain ⟨bare, hbare, rfl⟩ := map_eq_ok_iff.mp hfound
    obtain ⟨least, hleast, rfl⟩ := map_eq_ok_iff.mp hagain
    have hunplaced := unplaced_decodeBehind hbare hleast
    refine ⟨bare.unplaced, bare.unplaced_prefixed run, ?_, bare.size_prefixed run, ?_⟩
    · rw [least.unplaced_prefixed other, hunplaced]
    · rw [hunplaced]
      exact least.size_prefixed other

theorem decode_of_overrides_add : ∃ add : Instruction,
    small.decode [0x90, 0x2E, 0x66, 0x81, 0x00, 0x34, 0x12] 1 none = .ok (add.prefixed [0x2E, 0x66]) ∧
      small.decode [0xC3, 0x66, 0xF3, 0x81, 0x00, 0x34, 0x12] 1 none = .ok (add.prefixed [0x66, 0xF3]) := by
  have hrun : ∀ byte ∈ [0x2E, 0x66], Prefix.isByte byte = true := List.all_eq_true.mp rfl
  have hother : ∀ byte ∈ [0x66, 0xF3], Prefix.isByte byte = true := List.all_eq_true.mp rfl
  have hrest : ∀ byte, [0x81, 0x00, 0x34, 0x12].head? = some byte → Prefix.isByte byte = false := by
    rintro _ ⟨⟩
    decide
  obtain ⟨outcome, hfound, hagain⟩ :=
    (decode_of_overrides _ {} hrun hother (by decide) (by decide) hrest [0x90] [0xC3] none none).1 rfl rfl
  have hok : (small.decode [0x90, 0x2E, 0x66, 0x81, 0x00, 0x34, 0x12] 1 none).toBool = true := by
    decide +kernel
  cases outcome with
  | error refusal =>
    have herror : small.decode [0x90, 0x2E, 0x66, 0x81, 0x00, 0x34, 0x12] 1 none = .error refusal := hfound
    rw [herror] at hok
    exact absurd hok Bool.false_ne_true
  | ok add => exact ⟨add, hfound, hagain⟩

end Decoder
end IA32
