import Mathlib.Data.Nat.Digits.Defs
import Mathlib.Logic.Relation
import IA32.Cursor
import IA32.Proofs.ReaderLaws

set_option autoImplicit false

namespace IA32.Cursor

open Reader

def readBytes (cursor : Cursor) (image : List UInt8) :
    Nat → Except DecodeError (List UInt8 × Cursor)
  | 0 => .ok ([], cursor)
  | count + 1 => do
    let (byte, next) ← cursor.readByte image
    let (bytes, last) ← next.readBytes image count
    return (byte :: bytes, last)

/-- One read, of a byte or with any reader, as that of a number is, or one move to a word. The move is none if
the cursor is past that word already. A look at the next byte and a read that fails leave the cursor where it
is. -/
inductive Step (image : List UInt8) (cursor : Cursor) : Cursor → Prop where
  | readByte {byte : UInt8} {next : Cursor} : cursor.readByte image = .ok (byte, next) →
      Step image cursor next
  | read {α : Type} {reader : Reader α} {value : α} {next : Cursor} :
      cursor.read image reader = .ok (value, next) → Step image cursor next
  | advanceTo {pos : Nat} : pos < UInt64.size → Step image cursor (cursor.advanceTo pos)

structure Placed (cursor : Cursor) (start : Nat) : Prop where
  start_eq : cursor.start = start
  start_le : start ≤ cursor.pos
  pos_lt : cursor.pos < UInt64.size

structure ReadsFrom (cursor : Cursor) (image : List UInt8) (start : Nat) : Prop where
  placed : cursor.Placed start
  consumed : start + cursor.consumed = cursor.pos
  byteEnd : ∀ byte next, cursor.readByte image = .ok (byte, next) →
    image[cursor.pos]? = some byte ∧ next = ⟨start, cursor.pos + 1⟩ ∧ cursor.pos + 1 < UInt64.size
  numberEnd : ∀ count value next, cursor.readNumber image count = .ok (value, next) →
    next = ⟨start, cursor.pos + count⟩ ∧ cursor.pos + count < UInt64.size
  overflow : ∀ count, UInt64.size ≤ cursor.pos + count →
    cursor.readNumber image count = .error (cursor.truncated image)
  /-- A number has the outcome of its bytes: the same end, or the failure of the first that is not there. -/
  number : ∀ count, cursor.readNumber image count =
    (cursor.readBytes image count).map fun read =>
      (Nat.ofDigits 256 (read.1.map UInt8.toNat), read.2)
  word : ∀ value last, cursor.readNumber image 2 = .ok (value, last) ↔
    ∃ first second next, cursor.readByte image = .ok (first, next) ∧
      next.readByte image = .ok (second, last) ∧ value = first.toNat + 256 * second.toNat
  dword : ∀ value last, cursor.readNumber image 4 = .ok (value, last) ↔
    ∃ first second third fourth next middle behind, cursor.readByte image = .ok (first, next) ∧
      next.readByte image = .ok (second, middle) ∧ middle.readByte image = .ok (third, behind) ∧
        behind.readByte image = .ok (fourth, last) ∧
          value = first.toNat + 256 * second.toNat + 65536 * third.toNat + 16777216 * fourth.toNat
  peek : cursor.peek image = (cursor.readByte image).map (·.1)
  byteFailure : ∀ failure, cursor.readByte image = .error failure →
    failure = ⟨start, .truncated (image.length - start)⟩
  numberFailure : ∀ count failure, cursor.readNumber image count = .error failure →
    failure = ⟨start, .truncated (image.length - start)⟩

variable {α : Type} {cursor next last : Cursor} {image : List UInt8} {reader : Reader α}
  {count start : Nat}

/-- A read takes the bytes that its reader takes, or finds that the image ends before them. -/
theorem read_of_takes {post : α → Prop} (h : Takes reader (image.drop cursor.pos) count post) :
    ((image.drop cursor.pos).length < count →
        cursor.read image reader = .error (cursor.truncated image)) ∧
      (count ≤ (image.drop cursor.pos).length → ∃ value,
        cursor.read image reader = .ok (value, { cursor with pos := cursor.pos + count }) ∧
          post value) := by
  unfold read
  constructor
  · intro hshort
    simp only [h.2 hshort, error]
  · intro henough
    obtain ⟨value, hrun, hpost⟩ := h.1 henough
    refine ⟨value, ?_, hpost⟩
    rw [List.length_drop] at henough
    simp only [hrun, List.length_drop, Except.ok.injEq, Prod.mk.injEq, Cursor.mk.injEq, true_and]
    omega

theorem readNumber_of_lt (h : (image.drop cursor.pos).length < count) :
    cursor.readNumber image count = .error (cursor.truncated image) :=
  (read_of_takes (takes_number count _)).1 h

theorem readNumber_of_le (h : count ≤ (image.drop cursor.pos).length) :
    cursor.readNumber image count = .ok (littleEndian ((image.drop cursor.pos).take count),
      { cursor with pos := cursor.pos + count }) := by
  obtain ⟨value, hread, rfl⟩ := (read_of_takes (takes_number count _)).2 h
  exact hread

theorem readByte_of_nil (h : image.drop cursor.pos = []) :
    cursor.readByte image = .error (cursor.truncated image) := by
  have hnone : image[cursor.pos]? = none := by rw [← List.head?_drop, h, List.head?_nil]
  simp [readByte, peek, hnone, Except.map]

theorem readByte_of_cons {byte : UInt8} {rest : List UInt8} (h : image.drop cursor.pos = byte :: rest) :
    cursor.readByte image = .ok (byte, { cursor with pos := cursor.pos + 1 }) := by
  have hsome : image[cursor.pos]? = some byte := by rw [← List.head?_drop, h, List.head?_cons]
  simp [readByte, peek, hsome, Except.map]

theorem readNumber_zero (cursor : Cursor) (image : List UInt8) :
    cursor.readNumber image 0 = .ok (0, cursor) :=
  readNumber_of_le (Nat.zero_le _)

theorem readNumber_succ (cursor : Cursor) (image : List UInt8) (count : Nat) :
    cursor.readNumber image (count + 1) = do
      let (byte, next) ← cursor.readByte image
      let (value, last) ← next.readNumber image count
      return (byte.toNat + 256 * value, last) := by
  cases hcode : image.drop cursor.pos with
  | nil =>
    rw [readNumber_of_lt (by simp [hcode]), readByte_of_nil hcode]
    rfl
  | cons byte rest =>
    have hrest : image.drop (cursor.pos + 1) = rest := by
      rw [← List.drop_drop, hcode, List.drop_one, List.tail_cons]
    rw [readByte_of_cons hcode]
    change _ = (readNumber ⟨cursor.start, cursor.pos + 1⟩ image count >>= fun read =>
      pure (byte.toNat + 256 * read.1, read.2))
    by_cases hcount : count ≤ rest.length
    · rw [readNumber_of_le (by simpa [hcode] using hcount), readNumber_of_le (by simpa [hrest] using hcount)]
      simp only [hcode, hrest, List.take_succ_cons, littleEndian, Nat.add_assoc, Nat.add_comm 1]
      rfl
    · rw [readNumber_of_lt (by simpa [hcode] using hcount), readNumber_of_lt (by simpa [hrest] using hcount)]
      rfl

theorem readNumber_eq_readBytes (cursor : Cursor) (image : List UInt8) (count : Nat) :
    cursor.readNumber image count = (cursor.readBytes image count).map fun read =>
      (Nat.ofDigits 256 (read.1.map UInt8.toNat), read.2) := by
  induction count generalizing cursor with
  | zero => exact readNumber_zero cursor image
  | succ count ih =>
    rw [readNumber_succ, readBytes]
    cases cursor.readByte image with
    | error failure => rfl
    | ok read =>
      change (read.2.readNumber image count >>= _) = Except.map _ (read.2.readBytes image count >>= _)
      rw [ih]
      cases read.2.readBytes image count <;> rfl

theorem readNumber_succ_eq_ok {value : Nat} :
    cursor.readNumber image (count + 1) = .ok (value, last) ↔
      ∃ byte next rest, cursor.readByte image = .ok (byte, next) ∧
        next.readNumber image count = .ok (rest, last) ∧ value = byte.toNat + 256 * rest := by
  rw [readNumber_succ, bind_eq_ok_iff]
  constructor
  · rintro ⟨⟨byte, next⟩, hbyte, h⟩
    obtain ⟨⟨rest, _⟩, hrest, hvalue⟩ := bind_eq_ok_iff.mp h
    cases hvalue
    exact ⟨byte, next, rest, hbyte, hrest, rfl⟩
  · rintro ⟨byte, next, rest, hbyte, hrest, rfl⟩
    exact ⟨(byte, next), hbyte, bind_eq_ok_iff.mpr ⟨(rest, last), hrest, rfl⟩⟩

theorem readWord_eq_ok {value : Nat} : cursor.readNumber image 2 = .ok (value, last) ↔
    ∃ first second next, cursor.readByte image = .ok (first, next) ∧
      next.readByte image = .ok (second, last) ∧ value = first.toNat + 256 * second.toNat := by
  constructor
  · intro h
    obtain ⟨first, next, _, hfirst, hrest, rfl⟩ := readNumber_succ_eq_ok.mp h
    obtain ⟨second, _, _, hsecond, hnone, rfl⟩ := readNumber_succ_eq_ok.mp hrest
    cases (readNumber_zero _ image).symm.trans hnone
    exact ⟨first, second, next, hfirst, hsecond, rfl⟩
  · rintro ⟨first, second, next, hfirst, hsecond, rfl⟩
    have hnone := readNumber_zero last image
    have hrest := readNumber_succ_eq_ok.mpr ⟨second, last, 0, hsecond, hnone, rfl⟩
    exact readNumber_succ_eq_ok.mpr ⟨first, next, _, hfirst, hrest, rfl⟩

theorem readDword_eq_ok {value : Nat} : cursor.readNumber image 4 = .ok (value, last) ↔
    ∃ first second third fourth next middle behind, cursor.readByte image = .ok (first, next) ∧
      next.readByte image = .ok (second, middle) ∧ middle.readByte image = .ok (third, behind) ∧
        behind.readByte image = .ok (fourth, last) ∧
          value = first.toNat + 256 * second.toNat + 65536 * third.toNat + 16777216 * fourth.toNat := by
  -- Two single bytes, and the number of two bytes behind them.
  constructor
  · intro h
    obtain ⟨first, next, _, hfirst, hrest, rfl⟩ := readNumber_succ_eq_ok.mp h
    obtain ⟨second, middle, _, hsecond, hword, rfl⟩ := readNumber_succ_eq_ok.mp hrest
    obtain ⟨third, fourth, behind, hthird, hfourth, rfl⟩ := readWord_eq_ok.mp hword
    exact ⟨first, second, third, fourth, next, middle, behind, hfirst, hsecond, hthird, hfourth,
      by omega⟩
  · rintro ⟨first, second, third, fourth, next, middle, behind, hfirst, hsecond, hthird, hfourth, rfl⟩
    have hword := readWord_eq_ok.mpr ⟨third, fourth, behind, hthird, hfourth, rfl⟩
    have hrest := readNumber_succ_eq_ok.mpr ⟨second, middle, _, hsecond, hword, rfl⟩
    exact readNumber_succ_eq_ok.mpr ⟨first, next, _, hfirst, hrest, by omega⟩

theorem read_pos_le {value : α} (h : cursor.read image reader = .ok (value, next)) :
    next.pos ≤ max cursor.pos image.length := by
  unfold read at h
  dsimp only at h
  split at h
  · obtain ⟨⟩ := h
    simp only [List.length_drop]
    omega
  · contradiction

theorem readByte_eq_ok {byte : UInt8} (h : cursor.readByte image = .ok (byte, next)) :
    image[cursor.pos]? = some byte ∧ next = { cursor with pos := cursor.pos + 1 } := by
  cases hcode : image.drop cursor.pos with
  | nil =>
    rw [readByte_of_nil hcode] at h
    contradiction
  | cons first rest =>
    rw [readByte_of_cons hcode] at h
    obtain ⟨⟩ := h
    exact ⟨by rw [← List.head?_drop, hcode, List.head?_cons], rfl⟩

theorem readByte_eq_error {failure : DecodeError} (h : cursor.readByte image = .error failure) :
    failure = cursor.truncated image := by
  cases hcode : image.drop cursor.pos with
  | nil =>
    rw [readByte_of_nil hcode] at h
    exact (Except.error.inj h).symm
  | cons first rest =>
    rw [readByte_of_cons hcode] at h
    contradiction

theorem readNumber_eq_ok {value : Nat} (h : cursor.readNumber image count = .ok (value, next)) :
    count ≤ image.length - cursor.pos ∧ next = { cursor with pos := cursor.pos + count } := by
  rw [← List.length_drop]
  by_cases hcount : count ≤ (image.drop cursor.pos).length
  · rw [readNumber_of_le hcount] at h
    obtain ⟨⟩ := h
    exact ⟨hcount, rfl⟩
  · rw [readNumber_of_lt (Nat.lt_of_not_le hcount)] at h
    contradiction

theorem readNumber_eq_error {failure : DecodeError} (h : cursor.readNumber image count = .error failure) :
    failure = cursor.truncated image := by
  by_cases hcount : count ≤ (image.drop cursor.pos).length
  · rw [readNumber_of_le hcount] at h
    contradiction
  · rw [readNumber_of_lt (Nat.lt_of_not_le hcount)] at h
    exact (Except.error.inj h).symm

theorem Step.placed (himage : image.length < UInt64.size) (h : cursor.Placed start)
    (hstep : Step image cursor next) : next.Placed start := by
  have hpos := h.pos_lt
  have hstart := h.start_le
  cases hstep with
  | readByte hread =>
    obtain ⟨hbyte, rfl⟩ := readByte_eq_ok hread
    have hinside := (List.getElem?_eq_some_iff.mp hbyte).1
    exact ⟨h.start_eq, Nat.le_succ_of_le hstart, by dsimp only; omega⟩
  | read hread =>
    obtain ⟨hsame, hforward, -⟩ := read_pos hread
    have hend := read_pos_le hread
    exact ⟨hsame.trans h.start_eq, Nat.le_trans hstart hforward, by omega⟩
  | @advanceTo pos hword =>
    have hmax : (cursor.advanceTo pos).pos = max pos cursor.pos := rfl
    exact ⟨h.start_eq, by omega, by omega⟩

theorem placed_of_steps (himage : image.length < UInt64.size) (hstart : start < UInt64.size)
    (h : Relation.ReflTransGen (Step image) (.ofOffset start) cursor) : cursor.Placed start := by
  induction h with
  | refl => exact ⟨rfl, Nat.le_refl start, hstart⟩
  | tail _ hstep ih => exact hstep.placed himage ih

/-- Wherever reads and moves lead it, a cursor keeps its start, stands at a word, and reads numbers as it reads
bytes. -/
theorem readsFrom_of_steps (himage : image.length < UInt64.size) (hstart : start < UInt64.size)
    (h : Relation.ReflTransGen (Step image) (.ofOffset start) cursor) : cursor.ReadsFrom image start := by
  have hplaced := placed_of_steps himage hstart h
  have hword := hplaced.pos_lt
  have htruncated : cursor.truncated image = ⟨start, .truncated (image.length - start)⟩ := by
    rw [truncated, hplaced.start_eq]
  constructor
  case placed => exact hplaced
  case consumed =>
    rw [consumed, hplaced.start_eq]
    exact Nat.add_sub_of_le hplaced.start_le
  case byteEnd =>
    intro byte next hread
    obtain ⟨hbyte, rfl⟩ := readByte_eq_ok hread
    have hinside := (List.getElem?_eq_some_iff.mp hbyte).1
    exact ⟨hbyte, by rw [hplaced.start_eq], by omega⟩
  case numberEnd =>
    intro count value next hread
    obtain ⟨hinside, rfl⟩ := readNumber_eq_ok hread
    exact ⟨by rw [hplaced.start_eq], by omega⟩
  case overflow =>
    intro count hover
    apply readNumber_of_lt
    rw [List.length_drop]
    omega
  case number => exact readNumber_eq_readBytes cursor image
  case word => exact fun value last => readWord_eq_ok
  case dword => exact fun value last => readDword_eq_ok
  case peek =>
    rw [readByte]
    cases cursor.peek image <;> rfl
  case byteFailure => exact fun failure hread => htruncated ▸ readByte_eq_error hread
  case numberFailure => exact fun count failure hread => htruncated ▸ readNumber_eq_error hread

theorem readsFrom_of_steps_far :
    readNumber (.ofOffset 1) [0x90, 0x34, 0x12, 0xCD, 0xAB] 2 = .ok (0x1234, ⟨1, 3⟩) ∧
      readNumber (.ofOffset 1) [0x90, 0x34, 0x12, 0xCD, 0xAB] 4 = .ok (0xABCD1234, ⟨1, 5⟩) ∧
      Relation.ReflTransGen (Step [0x90, 0x34, 0x12, 0xCD, 0xAB]) (.ofOffset 1)
        ⟨1, 0xFFFFFFFFFFFFFFFF⟩ ∧
      ReadsFrom ⟨1, 0xFFFFFFFFFFFFFFFF⟩ [0x90, 0x34, 0x12, 0xCD, 0xAB] 1 ∧
      readNumber ⟨1, 0xFFFFFFFFFFFFFFFF⟩ [0x90, 0x34, 0x12, 0xCD, 0xAB] 2 =
        .error ⟨1, .truncated 4⟩ := by
  have hbyte : readByte (.ofOffset 1) [0x90, 0x34, 0x12, 0xCD, 0xAB] = .ok (0x34, ⟨1, 2⟩) := rfl
  have hword : 0xFFFFFFFFFFFFFFFF < UInt64.size := by decide
  have hnone : Relation.ReflTransGen (Step [0x90, 0x34, 0x12, 0xCD, 0xAB]) (.ofOffset 1) (.ofOffset 1) :=
    .refl
  have hmove : Step [0x90, 0x34, 0x12, 0xCD, 0xAB] ⟨1, 2⟩ ⟨1, 0xFFFFFFFFFFFFFFFF⟩ := .advanceTo hword
  have hsteps := (hnone.tail (.readByte hbyte)).tail hmove
  have hfirst := readsFrom_of_steps (by decide) (by decide) hnone
  have hlast := readsFrom_of_steps (by decide) (by decide) hsteps
  exact ⟨(hfirst.word _ _).mpr ⟨0x34, 0x12, ⟨1, 2⟩, rfl, rfl, rfl⟩,
    (hfirst.dword _ _).mpr ⟨0x34, 0x12, 0xCD, 0xAB, ⟨1, 2⟩, ⟨1, 3⟩, ⟨1, 4⟩, rfl, rfl, rfl, rfl, rfl⟩,
    hsteps, hlast, hlast.overflow 2 (by decide)⟩

end IA32.Cursor
