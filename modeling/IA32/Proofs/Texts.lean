import IA32.MemoryAddress

set_option autoImplicit false

namespace IA32

/-- Parts without stops that end in front of a stop, or with the text, are those of the text. -/
theorem append_inj_of_stops (stops : Char → Bool) {first second rest behind : List Char}
    (hfirst : ∀ char ∈ first, stops char = false) (hsecond : ∀ char ∈ second, stops char = false)
    (hrest : ∀ char ∈ rest.head?, stops char = true) (hbehind : ∀ char ∈ behind.head?, stops char = true)
    (h : first ++ rest = second ++ behind) : first = second ∧ rest = behind := by
  induction first generalizing second with
  | nil =>
    cases second with
    | nil => exact ⟨rfl, h⟩
    | cons char second =>
      have hstop := hrest char (by rw [show rest = char :: (second ++ behind) from h]; rfl)
      rw [hsecond char List.mem_cons_self] at hstop
      contradiction
  | cons char first ih =>
    cases second with
    | nil =>
      have hstop := hbehind char (by rw [← show char :: (first ++ rest) = behind from h]; rfl)
      rw [hfirst char List.mem_cons_self] at hstop
      contradiction
    | cons other second =>
      obtain ⟨rfl, hmore⟩ := List.cons.inj h
      obtain ⟨rfl, hsame⟩ := ih (fun c hc => hfirst c (List.mem_cons_of_mem _ hc))
        (fun c hc => hsecond c (List.mem_cons_of_mem _ hc)) hmore
      exact ⟨rfl, hsame⟩

def isWord (text : String) : Bool := text ≠ "" && text.toList.all Char.isLower

section Word

variable {text : String} (h : isWord text = true)

include h

theorem isLower_of_isWord : ∀ char ∈ text.toList, char.isLower = true :=
  List.all_eq_true.mp (Bool.and_eq_true_iff.mp h).2

theorem exists_cons_of_isWord : ∃ char more, text.toList = char :: more ∧ char.isLower = true := by
  have hne : text ≠ "" := of_decide_eq_true (Bool.and_eq_true_iff.mp h).1
  obtain ⟨char, more, htext⟩ := List.exists_cons_of_ne_nil (mt String.toList_eq_nil_iff.mp hne)
  exact ⟨char, more, htext, isLower_of_isWord h char (by simp [htext])⟩

theorem ne_of_isWord {stop : Char} (hstop : stop.isLower = false) :
    ∀ char ∈ text.toList, decide (char = stop) = false := by
  intro char hchar
  refine decide_eq_false ?_
  rintro rfl
  rw [isLower_of_isWord h char hchar] at hstop
  contradiction

end Word

namespace Hex

theorem digitChar_injOn : ∀ digit < 16, ∀ other < 16,
    Nat.digitChar digit = Nat.digitChar other → digit = other := by decide

theorem toDigits_injective : Function.Injective (Nat.toDigits 16) := by
  intro number
  induction number using Nat.strongRecOn with
  | ind number ih =>
    intro other h
    rw [Nat.toDigits_eq_if (by decide), Nat.toDigits_eq_if (n := other) (by decide)] at h
    by_cases hnumber : number < 16 <;> by_cases hother : other < 16
    · rw [if_pos hnumber, if_pos hother] at h
      exact digitChar_injOn _ hnumber _ hother (List.head_eq_of_cons_eq h)
    · rw [if_pos hnumber, if_neg hother] at h
      have hnil := List.append_eq_singleton_iff.mp h.symm
      simp [Nat.toDigits_ne_nil] at hnil
    · rw [if_neg hnumber, if_pos hother] at h
      have hnil := List.append_eq_singleton_iff.mp h
      simp [Nat.toDigits_ne_nil] at hnil
    · rw [if_neg hnumber, if_neg hother] at h
      obtain ⟨hhigh, hlow⟩ := List.append_inj' h rfl
      have hdiv : number / 16 = other / 16 := ih _ (by omega) hhigh
      have hmod : number % 16 = other % 16 :=
        digitChar_injOn _ (Nat.mod_lt _ (by decide)) _ (Nat.mod_lt _ (by decide))
          (List.head_eq_of_cons_eq hlow)
      omega

theorem toList_unsigned (value : Nat) : (unsigned value).toList = '0' :: 'x' :: Nat.toDigits 16 value := by
  unfold unsigned digits
  simp only [String.toList_append, String.toList_ofList]
  rfl

theorem unsigned_injective : Function.Injective unsigned := by
  intro value other h
  have hchars := congrArg String.toList h
  rw [toList_unsigned, toList_unsigned] at hchars
  exact toDigits_injective (List.tail_eq_of_cons_eq (List.tail_eq_of_cons_eq hchars))

theorem toList_signed (value : Int) : (signed value).toList =
    (if value < 0 then ['-'] else []) ++ (unsigned value.natAbs).toList := by
  unfold signed
  split
  · exact String.toList_append
  · rfl

theorem signed_injective : Function.Injective signed := by
  intro value other h
  have hchars := congrArg String.toList h
  simp only [toList_signed, toList_unsigned] at hchars
  by_cases hvalue : value < 0 <;> by_cases hother : other < 0 <;> simp [hvalue, hother] at hchars
  -- The signs are the same, and so are the digits behind them.
  all_goals
    have habs := toDigits_injective hchars
    omega

end Hex

namespace Register

def named : List Register :=
  .instructionPointer .dword :: [Width.byte, .word, .dword].flatMap fun width =>
    (List.range 8).map (general · width)

theorem general_mem_named {number : Nat} (h : number < 8) (width : Width) : general number width ∈ named := by
  have hwidth : width ∈ [Width.byte, .word, .dword] := by cases width <;> decide
  have hnumber : general number width ∈ (List.range 8).map (general · width) :=
    List.mem_map.mpr ⟨number, List.mem_range.mpr h, rfl⟩
  exact List.mem_cons_of_mem _ (List.mem_flatMap.mpr ⟨width, hwidth, hnumber⟩)

theorem name_injOn : ∀ register ∈ named, ∀ other ∈ named, register.name = other.name → register = other := by
  decide

theorem isWord_name : ∀ register ∈ named, isWord register.name = true := by decide

end Register

theorem Width.name_injective : Function.Injective Width.name := by
  intro width other h
  cases width <;> cases other <;> first | rfl | (revert h; decide)

theorem Width.isWord_name (width : Width) : isWord width.name = true := by cases width <;> decide

theorem MemoryAddress.segmentText_injective : Function.Injective segmentText := by
  intro segment other h
  rcases segment with _ | segment <;> rcases other with _ | other
  · rfl
  · cases other <;> revert h <;> decide
  · cases segment <;> revert h <;> decide
  · cases segment <;> cases other <;> first | rfl | (revert h; decide)

theorem MemoryAddress.segmentText_ne (segment : Option Segment) :
    ∀ char ∈ (segmentText segment).toList, decide (char = '[') = false := by
  have hall : (segmentText segment).toList.all (· ≠ '[') = true := by
    rcases segment with _ | segment
    · decide
    · cases segment <;> decide
  simpa using hall

end IA32
