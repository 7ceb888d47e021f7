import Mathlib.Data.List.Induction
import Mathlib.Data.List.TakeWhile
import IA32.Proofs.PrefixRun

set_option autoImplicit false

namespace IA32

namespace Prefix

theorem byte_injective {found other : Prefix} (h : found.byte = other.byte) : found = other := by
  have hfound := (ofByte?_eq_some_iff _ found).mpr h.symm
  rw [(ofByte?_eq_some_iff _ other).mpr rfl] at hfound
  exact (Option.some.inj hfound).symm

theorem isByte_iff (code : UInt8) : isByte code = true ↔ ∃ found : Prefix, code = found.byte := by
  simp [isByte, Option.isSome_iff_exists, ofByte?_eq_some_iff]

end Prefix

namespace PrefixState

/-- What is asked for by a run that leaves `state` and then one that leaves `later`: a flag of either holds,
and the segment and the repeat are the later ones where there are such. -/
def override (state later : PrefixState) : PrefixState where
  operandSize := state.operandSize || later.operandSize
  addressSize := state.addressSize || later.addressSize
  segment := later.segment.or state.segment
  lock := state.lock || later.lock
  repeats := later.repeats.or state.repeats

theorem override_empty (state : PrefixState) : state.override empty = state := by
  simp [override, empty]

theorem override_absorb (state later : PrefixState) (found : Prefix) :
    (state.override later).absorb found = state.override (later.absorb found) := by
  cases found <;> simp [override, absorb]

theorem foldl_absorb (founds : List Prefix) (state : PrefixState) :
    founds.foldl absorb state = state.override (founds.foldl absorb empty) := by
  calc
    founds.foldl absorb state = founds.foldl absorb (state.override empty) := by rw [override_empty]
    _ = state.override (founds.foldl absorb empty) := List.foldl_hom state.override (override_absorb state)

theorem ofRun_append (before after : List UInt8) :
    ofRun (before ++ after) = (ofRun before).override (ofRun after) := by
  unfold ofRun
  rw [List.filterMap_append, List.foldl_append, foldl_absorb]

theorem ofRun_concat (run : List UInt8) (found : Prefix) :
    ofRun (run ++ [found.byte]) = (ofRun run).absorb found := by
  have hfound := (Prefix.ofByte?_eq_some_iff _ found).mpr rfl
  simp [ofRun, hfound]

theorem absorb_ne_empty (state : PrefixState) (found : Prefix) : state.absorb found ≠ empty := by
  cases found <;> simp [absorb, empty]

section

variable {run : List UInt8}

theorem ofRun_eq_empty_iff (hrun : ∀ byte ∈ run, Prefix.isByte byte = true) :
    ofRun run = empty ↔ run = [] := by
  constructor
  · intro h
    induction run using List.reverseRecOn with
    | nil => rfl
    | append_singleton run byte _ =>
      obtain ⟨found, rfl⟩ := (Prefix.isByte_iff byte).mp (hrun byte (by simp))
      rw [ofRun_concat] at h
      exact absurd h (absorb_ne_empty _ found)
  · rintro rfl
    rfl

/-- The last of the bytes in the run that belong to `family` is that of `member`. There is no such byte if
there is no such member. -/
def LastOf {α : Type} (family : α → Prefix) (run : List UInt8) : Option α → Prop
  | none => ∀ other, (family other).byte ∉ run
  | some member => ∃ before after, run = before ++ (family member).byte :: after ∧
      ∀ other, (family other).byte ∉ after

theorem LastOf.concat {α : Type} {family : α → Prefix} {member : Option α} (h : LastOf family run member)
    {byte : UInt8} (hbyte : ∀ other, (family other).byte ≠ byte) :
    LastOf family (run ++ [byte]) member := by
  cases member with
  | none =>
    intro other hmem
    rcases List.mem_append.mp hmem with hrun | hlast
    · exact h other hrun
    · exact hbyte other (List.mem_singleton.mp hlast)
  | some member =>
    obtain ⟨before, after, rfl, hafter⟩ := h
    refine ⟨before, after ++ [byte], by simp, fun other hmem => ?_⟩
    rcases List.mem_append.mp hmem with hrun | hlast
    · exact hafter other hrun
    · exact hbyte other (List.mem_singleton.mp hlast)

/-- A field that one family of prefixes sets, and nothing else changes, is the last of its family. -/
theorem lastOf_ofRun {α : Type} (field : PrefixState → Option α) (family : α → Prefix)
    (hempty : field empty = none)
    (hset : ∀ state member, field (absorb state (family member)) = some member)
    (hkeep : ∀ state found, (∀ member, family member ≠ found) →
      field (absorb state found) = field state)
    (hrun : ∀ byte ∈ run, Prefix.isByte byte = true) : LastOf family run (field (ofRun run)) := by
  induction run using List.reverseRecOn with
  | nil =>
    rw [show field (ofRun []) = none from hempty]
    exact fun other => List.not_mem_nil
  | append_singleton run byte ih =>
    obtain ⟨found, rfl⟩ := (Prefix.isByte_iff byte).mp (hrun byte (by simp))
    rw [ofRun_concat]
    by_cases hfound : ∃ member, family member = found
    · obtain ⟨member, rfl⟩ := hfound
      rw [hset]
      exact ⟨run, [], rfl, fun other => List.not_mem_nil⟩
    · rw [hkeep _ _ fun member h => hfound ⟨member, h⟩]
      apply LastOf.concat
      · exact ih fun byte hbyte => hrun byte (List.mem_append_left _ hbyte)
      · exact fun other hbyte => hfound ⟨other, Prefix.byte_injective hbyte⟩

theorem lastOf_segment (hrun : ∀ byte ∈ run, Prefix.isByte byte = true) :
    LastOf .segment run (ofRun run).segment := by
  apply lastOf_ofRun (·.segment) .segment rfl (fun _ _ => rfl) _ hrun
  intro state found hfound
  cases found with
  | segment register => exact absurd rfl (hfound register)
  | operandSize | addressSize | lock | repeats => rfl

theorem lastOf_repeats (hrun : ∀ byte ∈ run, Prefix.isByte byte = true) :
    LastOf .repeats run (ofRun run).repeats := by
  apply lastOf_ofRun (·.repeats) .repeats rfl (fun _ _ => rfl) _ hrun
  intro state found hfound
  cases found with
  | repeats kind => exact absurd rfl (hfound kind)
  | operandSize | addressSize | lock | segment => rfl

end

structure Scans (image : List UInt8) (offset : Nat) (state : PrefixState) (next : Nat) : Prop where
  offset_le : offset ≤ next
  isByte : ∀ byte ∈ image.extract offset next, Prefix.isByte byte = true
  stops : next = offset ∧ image.length ≤ offset ∨ next = image.length ∨
    ∃ byte, image[next]? = some byte ∧ Prefix.isByte byte = false
  operandSize : state.operandSize = true ↔ 0x66 ∈ image.extract offset next
  addressSize : state.addressSize = true ↔ 0x67 ∈ image.extract offset next
  lock : state.lock = true ↔ 0xF0 ∈ image.extract offset next
  segment : LastOf .segment (image.extract offset next) state.segment
  repeats : LastOf .repeats (image.extract offset next) state.repeats
  isEmpty : state.isEmpty = true ↔ next = offset
  again : scan image next = (empty, next)
  /-- The run may be cut anywhere, and the scan of its rest goes on with the state of what stands before. -/
  split : ∀ middle, offset ≤ middle → middle ≤ next → ∃ before after,
    scan (image.take middle) offset = (before, middle) ∧ scan image middle = (after, next) ∧
      state = before.override after

variable {image : List UInt8} {offset : Nat}

theorem extract_scan (image : List UInt8) (offset : Nat) :
    image.extract offset (scan image offset).2 = (image.drop offset).takeWhile Prefix.isByte := by
  rw [scan_eq, List.extract_eq_take_drop, Nat.add_sub_cancel_left]
  exact (List.prefix_iff_eq_take.mp (List.takeWhile_prefix _)).symm

theorem drop_scan (image : List UInt8) (offset : Nat) :
    image.drop (scan image offset).2 = (image.drop offset).dropWhile Prefix.isByte := by
  rw [scan_eq, ← List.drop_drop, drop_length_takeWhile]

theorem scan_stops (image : List UInt8) (offset : Nat) :
    (scan image offset).2 = offset ∧ image.length ≤ offset ∨ (scan image offset).2 = image.length ∨
      ∃ byte, image[(scan image offset).2]? = some byte ∧ Prefix.isByte byte = false := by
  by_cases hstart : image.length ≤ offset
  · left
    simp [scan_eq, List.drop_eq_nil_of_le hstart, hstart]
  · right
    have hdrop := drop_scan image offset
    cases hrest : (image.drop offset).dropWhile Prefix.isByte with
    | nil =>
      have hlen := length_takeWhile_add_dropWhile (image.drop offset)
      rw [hrest, List.length_nil, List.length_drop] at hlen
      left
      rw [scan_eq]
      omega
    | cons byte rest =>
      rw [hrest] at hdrop
      right
      refine ⟨byte, ?_, isByte_of_dropWhile hrest⟩
      rw [← List.head?_drop, hdrop, List.head?_cons]

/-- The bytes of a run scan to the run, wherever it is cut off, and what is left of it is the run that stands
there. -/
theorem scan_split {middle : Nat} (hstart : offset ≤ middle) (hend : middle ≤ (scan image offset).2) :
    ∃ before after, scan (image.take middle) offset = (before, middle) ∧
      scan image middle = (after, (scan image offset).2) ∧
      (scan image offset).1 = before.override after := by
  obtain ⟨count, rfl⟩ := Nat.exists_eq_add_of_le hstart
  have hrun : ∀ byte ∈ (image.drop offset).takeWhile Prefix.isByte, Prefix.isByte byte = true :=
    fun _ => isByte_of_mem_takeWhile
  have hrest : ∀ byte, ((image.drop offset).dropWhile Prefix.isByte).head? = some byte →
      Prefix.isByte byte = false := fun _ => head?_dropWhile
  have hsplit := List.takeWhile_append_dropWhile (p := Prefix.isByte) (l := image.drop offset)
  rw [scan_eq image offset] at hend ⊢
  generalize (image.drop offset).takeWhile Prefix.isByte = run at *
  generalize (image.drop offset).dropWhile Prefix.isByte = rest at *
  have hcount : count ≤ run.length := by
    dsimp only at hend
    omega
  refine ⟨ofRun (run.take count), ofRun (run.drop count), ?_, ?_, ?_⟩
  · have htake : (image.take (offset + count)).drop offset = run.take count := by
      rw [List.drop_take, Nat.add_sub_cancel_left, ← hsplit, List.take_append_of_le_length hcount]
    have hall : (run.take count).takeWhile Prefix.isByte = run.take count :=
      List.takeWhile_eq_self_iff.mpr fun byte hbyte => hrun byte (List.mem_of_mem_take hbyte)
    rw [scan_eq, htake, hall, List.length_take_of_le hcount]
  · have hdrop : image.drop (offset + count) = run.drop count ++ rest := by
      rw [← List.drop_drop, ← hsplit, List.drop_append_of_le_length hcount]
    have hall : (run.drop count ++ rest).takeWhile Prefix.isByte = run.drop count :=
      (takeWhile_run_append_of_head (fun byte hbyte => hrun byte (List.mem_of_mem_drop hbyte)) hrest).1
    have hnext : offset + count + (run.length - count) = offset + run.length := by omega
    rw [scan_eq, hdrop, hall, List.length_drop, hnext]
  · rw [← ofRun_append, List.take_append_drop]

theorem scan_again (image : List UInt8) (offset : Nat) :
    scan image (scan image offset).2 = (empty, (scan image offset).2) := by
  have hnone : ((image.drop offset).dropWhile Prefix.isByte).takeWhile Prefix.isByte = [] := by
    cases hrest : (image.drop offset).dropWhile Prefix.isByte with
    | nil => rfl
    | cons byte rest => exact List.takeWhile_cons_of_neg (by simp [isByte_of_dropWhile hrest])
  rw [scan_eq image (scan image offset).2, drop_scan, hnone]
  rfl

/-- A scan takes the longest run of prefix bytes at its offset, also where the offset is behind the image. -/
theorem scans_scan (image : List UInt8) (offset : Nat) :
    Scans image offset (scan image offset).1 (scan image offset).2 := by
  have hextract := extract_scan image offset
  have hstate : (scan image offset).1 = ofRun ((image.drop offset).takeWhile Prefix.isByte) := by
    rw [scan_eq]
  have hnext : (scan image offset).2 = offset + ((image.drop offset).takeWhile Prefix.isByte).length := by
    rw [scan_eq]
  have hrun : ∀ byte ∈ (image.drop offset).takeWhile Prefix.isByte, Prefix.isByte byte = true :=
    fun _ => isByte_of_mem_takeWhile
  constructor
  case offset_le => omega
  case stops => exact scan_stops image offset
  case isEmpty =>
    rw [isEmpty, decide_eq_true_iff, hstate, ofRun_eq_empty_iff hrun, hnext, Nat.add_eq_left,
      List.length_eq_zero_iff]
  case again => exact scan_again image offset
  case split => exact fun middle => scan_split
  -- What is left is said of the bytes between the two offsets, which are the run.
  all_goals rw [hextract]
  case isByte => exact hrun
  case operandSize => rw [hstate, operandSize_ofRun, decide_eq_true_iff]
  case addressSize => rw [hstate, addressSize_ofRun, decide_eq_true_iff]
  case lock => rw [hstate, lock_ofRun, decide_eq_true_iff]
  case segment =>
    rw [hstate]
    exact lastOf_segment hrun
  case repeats =>
    rw [hstate]
    exact lastOf_repeats hrun

example : scan [0x90, 0x2E, 0x66, 0x65, 0xC3] 1 = ({ operandSize := true, segment := some .gs }, 4) := rfl

end PrefixState
end IA32
