import IA32.Proofs.Tiling

set_option autoImplicit false

namespace IA32

namespace Sweep

/-- At this offset there is an instruction of the sweep, or the sweep stops there. -/
def Passes (sweep : Sweep) (offset : Nat) : Prop :=
  offset ∈ sweep.instructions.map Instruction.offset ∨ offset = sweep.endOffset

def onward (sweep : Sweep) (offset : Nat) : Sweep :=
  { sweep with instructions := sweep.instructions.filter fun instruction => offset ≤ instruction.offset }

end Sweep

namespace Decoder

variable {decoder : Decoder} {image : List UInt8} {base : Option UInt64} {start stop offset count : Nat}
  {instruction : Instruction} {instructions : List Instruction}

namespace Tiling

theorem offset_of_mem (h : decoder.Tiling image base start instructions stop)
    (hmem : instruction ∈ instructions) : start ≤ instruction.offset ∧ instruction.offset < stop := by
  induction h with
  | nil offset => contradiction
  | cons hdecode htail ih =>
    have hoffset := offset_of_decode hdecode
    have hlt := lt_nextOffset_of_decode hdecode
    have hsum := htail.stop_eq
    rcases List.mem_cons.mp hmem with rfl | hmem
    · omega
    · have := ih hmem
      omega

/-- A tiling splits at the place of each of its instructions, and at its end. -/
theorem split_at (h : decoder.Tiling image base start instructions stop)
    (hpass : offset ∈ instructions.map Instruction.offset ∨ offset = stop) :
    ∃ count, decoder.Tiling image base start (instructions.take count) offset ∧
      decoder.Tiling image base offset (instructions.drop count) stop := by
  rcases hpass with hmem | rfl
  · obtain ⟨instruction, hinstruction, rfl⟩ := List.mem_map.mp hmem
    obtain ⟨count, hlt, rfl⟩ := List.getElem_of_mem hinstruction
    obtain ⟨middle, hfront, hback⟩ := h.take_drop count
    have hmiddle : instructions[count].offset = middle := by
      rw [List.drop_eq_getElem_cons hlt] at hback
      cases hback with
      | cons hdecode _ => exact offset_of_decode hdecode
    rw [hmiddle]
    exact ⟨count, hfront, hback⟩
  · refine ⟨instructions.length, ?_, ?_⟩
    · rwa [List.take_length]
    · rw [List.drop_length]
      exact .nil offset

theorem filter_eq_drop (hfront : decoder.Tiling image base start (instructions.take count) offset)
    (hback : decoder.Tiling image base offset (instructions.drop count) stop) :
    instructions.filter (fun instruction => offset ≤ instruction.offset) = instructions.drop count := by
  have hbefore : (instructions.take count).filter (fun found => offset ≤ found.offset) = [] := by
    apply List.filter_eq_nil_iff.mpr
    intro found hmem
    simpa using (hfront.offset_of_mem hmem).2
  have hbehind : (instructions.drop count).filter (fun found => offset ≤ found.offset) =
      instructions.drop count := by
    apply List.filter_eq_self.mpr
    intro found hmem
    simpa using (hback.offset_of_mem hmem).1
  calc instructions.filter (fun found => offset ≤ found.offset)
      = (instructions.take count ++ instructions.drop count).filter
          (fun found => offset ≤ found.offset) := by rw [List.take_append_drop]
    _ = instructions.drop count := by rw [List.filter_append, hbefore, hbehind, List.nil_append]

end Tiling

theorem sweep_onward (h : (decoder.sweep image start base).Passes offset) :
    decoder.sweep image offset base = (decoder.sweep image start base).onward offset := by
  obtain ⟨htiling, hstops⟩ := tiling_sweep decoder image start base
  obtain ⟨count, hfront, hback⟩ := htiling.split_at h
  rw [hback.sweep_eq_of_stops hstops, Sweep.onward, hfront.filter_eq_drop hback]

/-- From an offset that a sweep passes, the sweep is what it finds from there on, and so is any other sweep
that passes this offset. -/
theorem sweep_of_passes (decoder : Decoder) (image : List UInt8) (base : Option UInt64)
    (start offset : Nat) (h : (decoder.sweep image start base).Passes offset) :
    decoder.sweep image offset base = (decoder.sweep image start base).onward offset ∧
      ∀ other, (decoder.sweep image other base).Passes offset →
        (decoder.sweep image other base).onward offset =
          (decoder.sweep image start base).onward offset := by
  refine ⟨sweep_onward h, fun other hother => ?_⟩
  rw [← sweep_onward h, ← sweep_onward hother]

theorem sweep_of_passes_hidden : ∃ (image : List UInt8) (add jump : Instruction),
    small.sweep image 0 none = ⟨[add, jump], none, 8⟩ ∧
      (small.sweep image 0 none).Passes 6 ∧ (small.sweep image 2 none).Passes 6 ∧
      (small.sweep image 2 none).instructions.map Instruction.offset = [2, 4, 6] ∧
      small.sweep image 6 none = ⟨[jump], none, 8⟩ ∧
      (small.sweep image 2 none).onward 6 = (small.sweep image 0 none).onward 6 := by
  let image : List UInt8 := [0x81, 0xC0, 0xEB, 0x00, 0xEB, 0x00, 0xEB, 0x00]
  let add : Instruction := {
    mnemonic := "add"
    shape := .operation
    operands := [.register (.general 0 .dword), .immediate ⟨0x00EB00EB, .dword, false⟩]
    encoding := [0x81, 0xC0, 0xEB, 0x00, 0xEB, 0x00]
    offset := 0
    address := none
    prefixes := {} }
  let jump (offset : Nat) : Instruction := {
    mnemonic := "jmp"
    shape := .transfer .jump (some (.relative 0 none))
    operands := [.immediate ⟨0, .byte, true⟩]
    encoding := [0xEB, 0x00]
    offset
    address := none
    prefixes := {} }
  have hlast : small.Tiling image none 6 [jump 6] 8 := .cons (by decide +kernel) (.nil 8)
  have hadd : small.sweep image 0 none = ⟨[add, jump 6], none, 8⟩ :=
    (Tiling.cons (by decide +kernel) hlast).sweep_eq_of_stops (.complete rfl)
  have hhidden : small.sweep image 2 none = ⟨[jump 2, jump 4, jump 6], none, 8⟩ :=
    (Tiling.cons (by decide +kernel) (.cons (by decide +kernel) hlast)).sweep_eq_of_stops
      (.complete rfl)
  have hpass : (small.sweep image 0 none).Passes 6 := by
    rw [hadd]
    exact .inl (by decide)
  have hmeet : (small.sweep image 2 none).Passes 6 := by
    rw [hhidden]
    exact .inl (by decide)
  obtain ⟨hself, hothers⟩ := sweep_of_passes small image none 0 6 hpass
  refine ⟨image, add, jump 6, hadd, hpass, hmeet, ?_, ?_, hothers 2 hmeet⟩
  · rw [hhidden]
    rfl
  · rw [hself, hadd]
    rfl

end Decoder
end IA32
