import IA32.Reader

set_option autoImplicit false

/-!
# Laws of readers

What a reader makes of some code depends on the bytes that it takes and on nothing behind them. `Takes`
says how many bytes those are, `Ensures` what holds of the value where there is one.
-/
namespace IA32

theorem map_eq_ok_iff {ε α β : Type} {f : α → β} {outcome : Except ε α} {result : β} :
    outcome.map f = .ok result ↔ ∃ value, outcome = .ok value ∧ f value = result := by
  cases outcome with
  | error failure => simp [Except.map]
  | ok value => simp [Except.map]

theorem bind_eq_ok_iff {ε α β : Type} {outcome : Except ε α} {next : α → Except ε β} {result : β} :
    outcome >>= next = .ok result ↔ ∃ value, outcome = .ok value ∧ next value = .ok result := by
  cases outcome with
  | error failure => simp [bind, Except.bind]
  | ok value => simp [bind, Except.bind]

namespace Reader

variable {α β : Type}

theorem bind_done (reader : Reader α) : reader.bind done = reader := by
  induction reader with
  | done value | fail fault => rfl
  | take count rest ih => exact congrArg (take count) (funext ih)

theorem bind_bind {γ : Type} (reader : Reader α) (next : α → Reader β) (last : β → Reader γ) :
    (reader.bind next).bind last = reader.bind fun value => (next value).bind last := by
  induction reader with
  | done value | fail fault => rfl
  | take count rest ih => exact congrArg (take count) (funext ih)

instance : LawfulMonad Reader := LawfulMonad.mk' Reader bind_done (fun _ _ => rfl) bind_bind

theorem run_map (f : α → β) (reader : Reader α) (code : List UInt8) :
    (f <$> reader).run code = (reader.run code).map fun read => (f read.1, read.2) := by
  rw [map_eq_pure_bind, run_bind]
  cases reader.run code <;> rfl

theorem run_bind_eq_ok {reader : Reader α} {next : α → Reader β} {code rest : List UInt8} {value : β}
    (h : (reader >>= next).run code = .ok (value, rest)) :
    ∃ first behind, reader.run code = .ok (first, behind) ∧
      (next first).run behind = .ok (value, rest) := by
  rw [run_bind, bind_eq_ok_iff] at h
  obtain ⟨read, hread, hnext⟩ := h
  exact ⟨read.1, read.2, hread, hnext⟩

theorem run_take_of_le {count : Nat} {next : List UInt8 → Reader α} {code : List UInt8}
    (h : count ≤ code.length) :
    (take count next).run code = (next (code.take count)).run (code.drop count) := by
  rw [run, if_pos h]

theorem run_take_of_lt {count : Nat} {next : List UInt8 → Reader α} {code : List UInt8}
    (h : code.length < count) : (take count next).run code = .error .endOfCode := by
  rw [run, if_neg (by omega)]

theorem run_take_append {count : Nat} {next : List UInt8 → Reader α} {code : List UInt8}
    (h : count ≤ code.length) (more : List UInt8) :
    (take count next).run (code ++ more) = (next (code.take count)).run (code.drop count ++ more) := by
  have hc : count ≤ (code ++ more).length := by
    rw [List.length_append]
    omega
  rw [run_take_of_le hc, List.take_append_of_le_length h, List.drop_append_of_le_length h]

/-- A reader that came to a value or a fault does the same before more code. -/
theorem run_append_of_decided {reader : Reader α} {code : List UInt8}
    (h : reader.run code ≠ .error .endOfCode) (more : List UInt8) :
    reader.run (code ++ more) = (reader.run code).map fun read => (read.1, read.2 ++ more) := by
  induction reader generalizing code with
  | done value => rfl
  | fail fault => rfl
  | take count next ih =>
    by_cases hc : count ≤ code.length
    · rw [run_take_of_le hc] at h ⊢
      rw [run_take_append hc]
      exact ih _ h
    · rw [run_take_of_lt (by omega)] at h
      contradiction

/-- The bytes that a reader takes are all that it needs. -/
theorem run_used {reader : Reader α} {code rest : List UInt8} {value : α}
    (h : reader.run code = .ok (value, rest)) :
    ∃ used, code = used ++ rest ∧ reader.run used = .ok (value, []) := by
  induction reader generalizing code with
  | done final =>
    obtain ⟨⟩ := h
    exact ⟨[], rfl, rfl⟩
  | fail fault => contradiction
  | take count next ih =>
    by_cases hc : count ≤ code.length
    · rw [run_take_of_le hc] at h
      obtain ⟨used, hsplit, hused⟩ := ih _ h
      have hlen : (code.take count).length = count := List.length_take_of_le hc
      refine ⟨code.take count ++ used, ?_, ?_⟩
      · rw [List.append_assoc, ← hsplit, List.take_append_drop]
      · rw [run_take_append (Nat.le_of_eq hlen.symm), List.take_of_length_le (Nat.le_of_eq hlen),
          List.drop_of_length_le (Nat.le_of_eq hlen)]
        exact hused
    · rw [run_take_of_lt (by omega)] at h
      contradiction

/-- On `code` the reader takes `count` bytes and ends with a value that `post` holds of. Where fewer are
left it finds the end of the code. -/
def Takes (reader : Reader α) (code : List UInt8) (count : Nat) (post : α → Prop) : Prop :=
  (count ≤ code.length → ∃ value, reader.run code = .ok (value, code.drop count) ∧ post value) ∧
    (code.length < count → reader.run code = .error .endOfCode)

variable {reader : Reader α} {code : List UInt8} {count : Nat} {post : α → Prop}

theorem takes_pure {value : α} (h : post value) : Takes (pure value) code 0 post :=
  ⟨fun _ => ⟨value, rfl, h⟩, fun hc => absurd hc (Nat.not_lt_zero _)⟩

theorem takes_number (count : Nat) (code : List UInt8) :
    Takes (number count) code count (· = littleEndian (code.take count)) :=
  ⟨fun hc => ⟨_, run_take_of_le hc, rfl⟩, fun hc => run_take_of_lt hc⟩

theorem takes_nil (h : reader.run [] = .error .endOfCode) (hcount : 0 < count) :
    Takes reader [] count post :=
  ⟨fun hc => absurd hcount (Nat.not_lt.mpr hc), fun _ => h⟩

theorem takes_bind {next : α → Reader β} {more : Nat} {final : β → Prop}
    (h : Takes reader code count post)
    (hnext : ∀ value, post value → Takes (next value) (code.drop count) more final) :
    Takes (reader >>= next) code (count + more) final := by
  constructor
  · intro hc
    obtain ⟨value, hrun, hpost⟩ := h.1 (by omega)
    obtain ⟨result, hresult, hfinal⟩ := (hnext value hpost).1 (by rw [List.length_drop]; omega)
    refine ⟨result, ?_, hfinal⟩
    rw [run_bind, hrun, ← List.drop_drop]
    exact hresult
  · intro hc
    rw [run_bind]
    by_cases hfirst : count ≤ code.length
    · obtain ⟨value, hrun, hpost⟩ := h.1 hfirst
      rw [hrun]
      exact (hnext value hpost).2 (by rw [List.length_drop]; omega)
    · rw [h.2 (by omega)]
      rfl

theorem takes_bind_done {next : α → Reader β} {final : β → Prop} (h : Takes reader code count post)
    (hnext : ∀ value, post value → Takes (next value) (code.drop count) 0 final) :
    Takes (reader >>= next) code count final := takes_bind h hnext

theorem takes_map {f : α → β} {final : β → Prop} (h : Takes reader code count post)
    (hf : ∀ value, post value → final (f value)) :
    Takes (do return f (← reader)) code count final :=
  takes_bind_done h fun value hvalue => takes_pure (hf value hvalue)

theorem Takes.weaken {weaker : α → Prop} (h : Takes reader code count post)
    (hpost : ∀ value, post value → weaker value) : Takes reader code count weaker := by
  refine ⟨fun hc => ?_, h.2⟩
  obtain ⟨value, hrun, hvalue⟩ := h.1 hc
  exact ⟨value, hrun, hpost value hvalue⟩

/-- `post` holds of every value that the reader comes to, whatever the code is. -/
def Ensures (reader : Reader α) (post : α → Prop) : Prop :=
  ∀ code read, reader.run code = .ok read → post read.1

theorem ensures_pure {value : α} (h : post value) : Ensures (pure value) post := by
  rintro code _ ⟨⟩
  exact h

theorem ensures_invalid (fault : OperandFault) : Ensures (invalid fault) post :=
  fun _ _ h => nomatch h

theorem ensures_bind {next : α → Reader β} {final : β → Prop} (h : Ensures reader post)
    (hnext : ∀ value, post value → Ensures (next value) final) : Ensures (reader >>= next) final := by
  intro code read hread
  obtain ⟨first, behind, hfirst, hlast⟩ := run_bind_eq_ok hread
  exact hnext first (h code _ hfirst) behind read hlast

theorem ensures_trivial (reader : Reader α) : Ensures reader fun _ => True := fun _ _ _ => trivial

end Reader
end IA32
