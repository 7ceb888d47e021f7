import IA32.Prefix

set_option autoImplicit false

namespace IA32

namespace Prefix

def byte : Prefix → UInt8
  | operandSize => 0x66
  | addressSize => 0x67
  | lock => 0xF0
  | repeats .repne => 0xF2
  | repeats .rep => 0xF3
  | segment .es => 0x26
  | segment .cs => 0x2E
  | segment .ss => 0x36
  | segment .ds => 0x3E
  | segment .fs => 0x64
  | segment .gs => 0x65

theorem ofByte?_eq_some_iff (code : UInt8) (found : Prefix) :
    ofByte? code = some found ↔ code = found.byte := by
  constructor
  · intro h
    rw [← UInt8.toNat_inj]
    unfold ofByte? at h
    split at h <;> cases h <;> assumption
  · rintro rfl
    cases found with
    | operandSize | addressSize | lock => rfl
    | repeats kind => cases kind <;> rfl
    | segment register => cases register <;> rfl

end Prefix

namespace PrefixState

def ofRun (bytes : List UInt8) : PrefixState :=
  (bytes.filterMap Prefix.ofByte?).foldl absorb empty

theorem absorbRun_eq (state : PrefixState) (code : List UInt8) :
    absorbRun state code =
      (((code.takeWhile Prefix.isByte).filterMap Prefix.ofByte?).foldl absorb state,
        (code.takeWhile Prefix.isByte).length) := by
  induction code generalizing state with
  | nil => rfl
  | cons byte rest ih =>
    rw [absorbRun]
    cases hbyte : Prefix.ofByte? byte with
    | none => simp [Prefix.isByte, hbyte]
    | some found => simp [ih, Prefix.isByte, hbyte]

theorem scan_eq (image : List UInt8) (offset : Nat) :
    scan image offset =
      (ofRun ((image.drop offset).takeWhile Prefix.isByte),
        offset + ((image.drop offset).takeWhile Prefix.isByte).length) := by
  unfold scan
  rw [absorbRun_eq]
  rfl

theorem length_takeWhile_add_dropWhile (code : List UInt8) :
    (code.takeWhile Prefix.isByte).length + (code.dropWhile Prefix.isByte).length = code.length := by
  rw [← List.length_append, List.takeWhile_append_dropWhile]

theorem drop_length_takeWhile (code : List UInt8) :
    code.drop (code.takeWhile Prefix.isByte).length = code.dropWhile Prefix.isByte := by
  calc
    code.drop (code.takeWhile Prefix.isByte).length =
        (code.takeWhile Prefix.isByte ++ code.dropWhile Prefix.isByte).drop
          (code.takeWhile Prefix.isByte).length := by rw [List.takeWhile_append_dropWhile]
    _ = code.dropWhile Prefix.isByte := List.drop_left

theorem takeWhile_append_of_ended {code : List UInt8} (h : code.dropWhile Prefix.isByte ≠ [])
    (more : List UInt8) :
    (code ++ more).takeWhile Prefix.isByte = code.takeWhile Prefix.isByte ∧
      (code ++ more).dropWhile Prefix.isByte = code.dropWhile Prefix.isByte ++ more := by
  have hlen := length_takeWhile_add_dropWhile code
  have hpos := List.length_pos_iff.mpr h
  constructor
  · rw [List.takeWhile_append, if_neg (by omega)]
  · rw [List.dropWhile_append, if_neg (by simpa using h)]

theorem dropWhile_take (code : List UInt8) (k : Nat) :
    (code.take k).dropWhile Prefix.isByte =
      (code.dropWhile Prefix.isByte).take (k - (code.takeWhile Prefix.isByte).length) := by
  induction code generalizing k with
  | nil => simp
  | cons byte rest ih =>
    cases k with
    | zero => simp
    | succ k =>
      by_cases hbyte : Prefix.isByte byte = true
      · simp [hbyte, ih]
      · simp [hbyte]

/-- In front of a byte that is no prefix a run of prefix bytes is taken whole. -/
theorem takeWhile_run_append {run : List UInt8} (hrun : ∀ byte ∈ run, Prefix.isByte byte = true)
    {byte : UInt8} (hbyte : Prefix.isByte byte = false) (rest : List UInt8) :
    (run ++ byte :: rest).takeWhile Prefix.isByte = run ∧
      (run ++ byte :: rest).dropWhile Prefix.isByte = byte :: rest := by
  constructor
  · rw [List.takeWhile_append_of_pos hrun, List.takeWhile_cons_of_neg (by simp [hbyte]), List.append_nil]
  · rw [List.dropWhile_append_of_pos hrun, List.dropWhile_cons_of_neg (by simp [hbyte])]

theorem takeWhile_run_append_of_head {run rest : List UInt8}
    (hrun : ∀ byte ∈ run, Prefix.isByte byte = true)
    (hrest : ∀ byte, rest.head? = some byte → Prefix.isByte byte = false) :
    (run ++ rest).takeWhile Prefix.isByte = run ∧ (run ++ rest).dropWhile Prefix.isByte = rest := by
  cases rest with
  | nil =>
    rw [List.takeWhile_append_of_pos hrun, List.dropWhile_append_of_pos hrun]
    exact ⟨List.append_nil run, rfl⟩
  | cons byte rest => exact takeWhile_run_append hrun (hrest byte rfl) rest

theorem isByte_of_mem_takeWhile {code : List UInt8} {byte : UInt8}
    (h : byte ∈ code.takeWhile Prefix.isByte) : Prefix.isByte byte = true :=
  List.all_eq_true.mp List.all_takeWhile byte h

theorem isByte_of_dropWhile {code rest : List UInt8} {byte : UInt8}
    (h : code.dropWhile Prefix.isByte = byte :: rest) : Prefix.isByte byte = false := by
  have hhead := List.head?_dropWhile_not Prefix.isByte code
  rw [h] at hhead
  simpa using hhead

theorem head?_dropWhile {code : List UInt8} {byte : UInt8}
    (h : (code.dropWhile Prefix.isByte).head? = some byte) : Prefix.isByte byte = false := by
  obtain ⟨rest, hrest⟩ := List.head?_eq_some_iff.mp h
  exact isByte_of_dropWhile hrest

theorem flag_foldl (flag : PrefixState → Bool) (setter : Prefix)
    (h : ∀ state found, flag (absorb state found) = (flag state || decide (setter = found)))
    (founds : List Prefix) (state : PrefixState) :
    flag (founds.foldl absorb state) = (flag state || decide (setter ∈ founds)) := by
  induction founds generalizing state with
  | nil => simp
  | cons found founds ih =>
    rw [List.foldl_cons, ih, h]
    simp [List.mem_cons, Bool.or_assoc]

theorem flag_ofRun (flag : PrefixState → Bool) (setter : Prefix)
    (h : ∀ state found, flag (absorb state found) = (flag state || decide (setter = found)))
    (hempty : flag empty = false) (run : List UInt8) :
    flag (ofRun run) = decide (setter.byte ∈ run) := by
  unfold ofRun
  rw [flag_foldl flag setter h, hempty]
  simp [List.mem_filterMap, Prefix.ofByte?_eq_some_iff]

theorem operandSize_ofRun (run : List UInt8) : (ofRun run).operandSize = decide (0x66 ∈ run) :=
  flag_ofRun (·.operandSize) .operandSize (fun state found => by cases found <;> simp [absorb]) rfl run

theorem addressSize_ofRun (run : List UInt8) : (ofRun run).addressSize = decide (0x67 ∈ run) :=
  flag_ofRun (·.addressSize) .addressSize (fun state found => by cases found <;> simp [absorb]) rfl run

theorem lock_ofRun (run : List UInt8) : (ofRun run).lock = decide (0xF0 ∈ run) :=
  flag_ofRun (·.lock) .lock (fun state found => by cases found <;> simp [absorb]) rfl run

def lastSegment (run : List UInt8) : Option Segment :=
  (run.filterMap fun byte => (Prefix.ofByte? byte).bind Prefix.segment?).getLast?

theorem segment_foldl (founds : List Prefix) (state : PrefixState) :
    (founds.foldl absorb state).segment =
      (founds.filterMap Prefix.segment?).getLast?.or state.segment := by
  induction founds generalizing state with
  | nil => rfl
  | cons found founds ih =>
    rw [List.foldl_cons, ih]
    cases found with
    | segment register => simp [absorb, Prefix.segment?, List.getLast?_cons]
    | operandSize | addressSize | lock | repeats => rfl

theorem segment_ofRun (run : List UInt8) : (ofRun run).segment = lastSegment run := by
  unfold ofRun lastSegment
  rw [segment_foldl, List.filterMap_filterMap]
  exact Option.or_none

end PrefixState
end IA32
