import Mathlib.Data.List.Chain
import IA32.Proofs.Finality

set_option autoImplicit false

namespace IA32

open Reader

def Instruction.buffer (instruction : Instruction) : List UInt8 :=
  (instruction.encoding ++ List.replicate maxInstructionLength 0).take maxInstructionLength

theorem Instruction.buffer_take {instruction : Instruction}
    (h : instruction.size ≤ maxInstructionLength) :
    instruction.buffer.take (UInt8.ofNat instruction.size).toNat = instruction.encoding := by
  have hbyte : (UInt8.ofNat instruction.size).toNat = instruction.size := by
    unfold maxInstructionLength at h
    rw [UInt8.toNat_ofNat', Nat.mod_eq_of_lt (by omega)]
  rw [hbyte, buffer, List.take_take, Nat.min_eq_left h, size, List.take_left]

namespace Cursor

variable {α : Type} {cursor next : Cursor} {image : List UInt8} {reader : Reader α} {value : α}

theorem ensures_read {post : α → Prop} (h : Ensures reader post)
    (hread : cursor.read image reader = .ok (value, next)) : post value := by
  unfold read at hread
  cases hrun : reader.run (image.drop cursor.pos) with
  | error halt =>
    simp only [hrun] at hread
    contradiction
  | ok result =>
    simp only [hrun, Except.ok.injEq, Prod.mk.injEq] at hread
    rw [← hread.1]
    exact h _ result hrun

/-- Where the cursor stands as a reader takes its bytes, up to where it ends or fails. -/
def trail (image : List UInt8) : Reader α → Cursor → List Cursor
  | .done _, cursor => [cursor]
  | .fail _, cursor => [cursor]
  | .take count rest, cursor =>
    if count ≤ (image.drop cursor.pos).length then
      cursor :: trail image (rest ((image.drop cursor.pos).take count))
        { cursor with pos := cursor.pos + count }
    else [cursor]

def Leads (before after : Cursor) : Prop := after.start = before.start ∧ before.pos ≤ after.pos

theorem head?_trail (image : List UInt8) (reader : Reader α) (cursor : Cursor) :
    (cursor.trail image reader).head? = some cursor := by
  cases reader with
  | done | fail => rfl
  | take count rest =>
    rw [trail]
    split <;> rfl

theorem isChain_trail (image : List UInt8) (reader : Reader α) (cursor : Cursor) :
    (cursor.trail image reader).IsChain Leads := by
  induction reader generalizing cursor with
  | done | fail => exact .singleton _
  | take count rest ih =>
    rw [trail]
    split
    · refine List.isChain_cons.mpr ⟨fun after hafter => ?_, ih _ _⟩
      rw [head?_trail] at hafter
      obtain rfl := Option.some.inj hafter
      exact ⟨rfl, Nat.le_add_right _ _⟩
    · exact .singleton _

theorem read_take {count : Nat} {rest : List UInt8 → Reader α}
    (h : count ≤ (image.drop cursor.pos).length) :
    cursor.read image (.take count rest) =
      { cursor with pos := cursor.pos + count }.read image
        (rest ((image.drop cursor.pos).take count)) := by
  unfold read
  simp only [run_take_of_le h, List.drop_drop]
  cases hrun : (rest ((image.drop cursor.pos).take count)).run (image.drop (cursor.pos + count)) with
  | error halt => cases halt <;> rfl
  | ok result =>
    obtain ⟨used, hused, -⟩ := run_used hrun
    have hlen := congrArg List.length hused
    rw [List.length_append, List.length_drop] at hlen
    rw [List.length_drop] at h
    simp only [List.length_drop, Except.ok.injEq, Prod.mk.injEq, Cursor.mk.injEq, true_and]
    omega

theorem getLast?_trail (h : cursor.read image reader = .ok (value, next)) :
    (cursor.trail image reader).getLast? = some next := by
  induction reader generalizing cursor with
  | done final =>
    unfold read at h
    simp only [run, Nat.sub_self, Nat.add_zero, Except.ok.injEq, Prod.mk.injEq] at h
    rw [← h.2]
    rfl
  | fail fault => contradiction
  | take count rest ih =>
    by_cases hcount : count ≤ (image.drop cursor.pos).length
    · rw [read_take hcount] at h
      rw [trail, if_pos hcount, List.getLast?_cons, ih _ h]
      rfl
    · unfold read at h
      simp only [run_take_of_lt (Nat.not_le.mp hcount)] at h
      contradiction

end Cursor

namespace Operand

variable {context : Context} {opcode : UInt8} {modeByte : Option ModeByte}

theorem ensures_readAround (rm : Option Operand) (specs : List OperandSpec) :
    Ensures (readAround context opcode modeByte rm specs) (·.length = specs.length) := by
  induction specs generalizing rm with
  | nil => exact ensures_pure rfl
  | cons spec specs ih =>
    have hcons : ∀ (rest : Option Operand) (operand : Operand),
        Ensures (do return operand :: (← readAround context opcode modeByte rest specs))
          (·.length = (spec :: specs).length) := by
      intro rest operand
      refine ensures_bind (ih rest) fun operands hoperands => ensures_pure ?_
      rw [List.length_cons, List.length_cons, hoperands]
    unfold readAround
    split
    · cases rm with
      | none => exact ensures_invalid _
      | some operand => exact hcons none operand
    · exact ensures_bind (ensures_trivial _) fun operand _ => hcons rm operand

end Operand

theorem Table.ensures_readBody (table : Table) (context : Context) :
    Ensures (table.readBody context) fun body =>
      body.operands.length = body.selection.descriptor.operands.length := by
  refine ensures_bind (ensures_trivial _) fun key _ => ?_
  refine ensures_bind (ensures_trivial _) fun selection _ => ?_
  have hall : Ensures (Operand.readAll context selection.key.opcode selection.modeByte
      selection.descriptor.operands) (·.length = selection.descriptor.operands.length) :=
    ensures_bind (ensures_trivial _) fun rm _ => Operand.ensures_readAround rm _
  exact ensures_bind hall fun operands hoperands => ensures_pure hoperands

namespace Decoder

/-- Where the cursor of a decode stands, from the first prefix on. -/
def trail (decoder : Decoder) (image : List UInt8) (start : Nat) : List Cursor :=
  .ofOffset start :: (Cursor.behindPrefixes image start).trail image
    (decoder.table.readBody (decoder.config.context (PrefixState.scan image start).1))

structure Proceeds (decoder : Decoder) (image : List UInt8) (start : Nat) (base : Option UInt64) :
    Prop where
  scanned : start ≤ (PrefixState.scan image start).2
  forward : (decoder.trail image start).IsChain Cursor.Leads
  fault : ∀ error fault, decoder.decode image start base = .error error →
    error.cause = .invalidOperand fault → fault = .registerForm ∨ fault = .memoryForm
  built : ∀ body cursor, start ≤ image.length →
    (Cursor.behindPrefixes image start).read image (decoder.table.readBody
      (decoder.config.context (PrefixState.scan image start).1)) = .ok (body, cursor) →
    cursor.consumed ≤ decoder.config.lengthLimit →
    body.operands.length = body.selection.descriptor.operands.length ∧
    (decoder.trail image start).getLast? = some cursor ∧ cursor.start = start ∧
    0 < cursor.consumed ∧ cursor.consumed ≤ maxInstructionLength ∧ cursor.pos ≤ image.length ∧
    ∃ instruction,
      Instruction.build body.selection.descriptor body.operands (PrefixState.scan image start).1
          (decoder.config.operandWidth (PrefixState.scan image start).1) image cursor base =
        .ok instruction ∧
      decoder.decode image start base = .ok instruction ∧ instruction.size = cursor.consumed ∧
      instruction.buffer.take (UInt8.ofNat instruction.size).toNat = instruction.encoding

variable {decoder : Decoder} {image : List UInt8} {start : Nat} {base : Option UInt64}

theorem isChain_decoder_trail (decoder : Decoder) (image : List UInt8) (start : Nat) :
    (decoder.trail image start).IsChain Cursor.Leads := by
  refine List.isChain_cons.mpr ⟨fun after hafter => ?_, Cursor.isChain_trail _ _ _⟩
  rw [Cursor.head?_trail] at hafter
  obtain rfl := Option.some.inj hafter
  rw [Cursor.behindPrefixes_eq]
  exact ⟨rfl, Nat.le_add_right _ _⟩

theorem operandFault_of_decode (hsound : decoder.table.Sound) {error : DecodeError}
    {fault : OperandFault} (h : decoder.decode image start base = .error error)
    (hcause : error.cause = .invalidOperand fault) :
    fault = .registerForm ∨ fault = .memoryForm := by
  obtain ⟨cause, rfl, hfails⟩ := exists_fails_of_decode hsound h
  obtain rfl := hcause
  cases hfails with
  | invalidOperand _ hmisfit =>
    cases hmisfit with
    | registerForm => exact .inl rfl
    | memoryForm => exact .inr rfl

/-- Whatever a table was built of, its decodes report none of the faults that the checks of descriptors rule
out, put no instruction together that does not fit, and never go back. -/
theorem decode_proceeds (calls : List (OpcodeKey × Descriptor)) (config : Config)
    (image : List UInt8) (start : Nat) (base : Option UInt64) :
    (Decoder.mk (.ofCalls calls) config).Proceeds image start base := by
  have hsound : (Decoder.mk (.ofCalls calls) config).table.Sound := Table.sound_ofCalls calls
  generalize Decoder.mk (.ofCalls calls) config = decoder at hsound ⊢
  refine {
    scanned := ?_
    forward := isChain_decoder_trail decoder image start
    fault := fun _ _ => operandFault_of_decode hsound
    built := fun body cursor hstart hread hlimit => ?_ }
  · rw [PrefixState.scan_eq]
    exact Nat.le_add_right _ _
  · have hoperands := Cursor.ensures_read (Table.ensures_readBody _ _) hread
    have hlast : (decoder.trail image start).getLast? = some cursor := by
      rw [trail, List.getLast?_cons, Cursor.getLast?_trail hread]
      rfl
    rw [read_behindPrefixes] at hread
    rcases hcode : decoder.readCode (image.drop start) with halt | reading
    · rw [hcode] at hread
      contradiction
    · rw [hcode] at hread
      obtain ⟨rfl, rfl⟩ := Prod.mk.inj (Except.ok.inj hread)
      obtain ⟨hpos, hsize, -⟩ := readCode_take_size hcode
      have hmax := decoder.config.lengthLimit_le
      have hlen := reading.size_instruction hsize decoder.config start base
      have hconsumed : Cursor.consumed ⟨start, start + reading.size⟩ = reading.size :=
        Nat.add_sub_cancel_left _ _
      rw [hconsumed] at hlimit
      rw [hconsumed]
      have hend : start + reading.size ≤ image.length := by
        rw [List.length_drop] at hsize
        omega
      refine ⟨hoperands, hlast, rfl, hpos, by omega, hend, _, ?_, ?_, hlen, ?_⟩
      · rw [scan_of_readCode hcode]
        exact reading.build_eq_instruction decoder.config base hpos hsize hlimit
      · exact decode_eq_ok_iff.mpr ⟨reading, hcode, hlimit, rfl⟩
      · exact Instruction.buffer_take (by omega)

end Decoder
end IA32
