import IA32.Proofs.Conformance
import IA32.Proofs.Stages

set_option autoImplicit false

/-!
# The order of operands

Operands are named in some order and stand in the code in another: that in the r/m field first, and those with
fields of their own behind it. Only the order of the fields is one of the code, so that operands in any other
order that keeps the fields in theirs are read from the same bytes, each as before.
-/
namespace IA32

open Reader

def reorder {α : Type} (order : List Nat) (items : List α) : List α := order.filterMap (items[·]?)

/-- An order of operands in which those that stand in fields of their own follow one another as before. -/
structure Reorders (order : List Nat) (specs : List OperandSpec) : Prop where
  perm : order.Perm (List.range specs.length)
  fields : (order.filter fun place => specs[place]?.any (·.mode.isField)).Pairwise (· < ·)

/-- Two operands change places unless both stand in fields. -/
theorem Reorders.swap {first second : OperandSpec}
    (h : first.mode.isField = false ∨ second.mode.isField = false) : Reorders [1, 0] [first, second] where
  perm := .swap 0 1 []
  fields := by
    rcases h with h | h
    · cases hsecond : second.mode.isField <;> simp [h, hsecond]
    · cases hfirst : first.mode.isField <;> simp [h, hfirst]

def Descriptor.reordered (descriptor : Descriptor) (order : List Nat) : Descriptor :=
  { descriptor with operands := reorder order descriptor.operands }

def Instruction.reordered (instruction : Instruction) (order : List Nat) : Instruction :=
  { instruction with operands := reorder order instruction.operands }

section Lists

variable {α β : Type} {order : List Nat} {items : List α}

theorem reorder_map (order : List Nat) (f : α → β) (items : List α) :
    reorder order (items.map f) = (reorder order items).map f := by
  simp only [reorder, List.map_filterMap, List.getElem?_map]

theorem reorder_range (items : List α) : reorder (List.range items.length) items = items := by
  have hget : (List.range items.length).map (items[·]?) = items.map some := by
    apply List.ext_getElem
    · simp
    · intro place _ hplace
      simp
  calc
    reorder (List.range items.length) items =
        ((List.range items.length).map (items[·]?)).filterMap id := by
      rw [List.filterMap_map]
      rfl
    _ = items := by rw [hget, List.filterMap_map, Function.id_comp, List.filterMap_some]

theorem reorder_perm (h : order.Perm (List.range items.length)) : (reorder order items).Perm items := by
  have hperm := h.filterMap (items[·]?)
  rwa [← reorder, ← reorder, reorder_range] at hperm

theorem eq_of_perm_of_length_le {others : List α} (h : others.Perm items) (hlength : items.length ≤ 1) :
    others = items := by
  rcases items with _ | ⟨item, _ | _⟩
  · exact h.eq_nil
  · exact List.perm_singleton.mp h
  · simp at hlength

variable {takes : α → Bool}

theorem map_snd_filter_reorder (order : List Nat) (items : List α) :
    ((reorder order items.zipIdx).filter (takes ·.1)).map Prod.snd =
      order.filter (items[·]?.any takes) := by
  rw [reorder, List.filter_filterMap, List.map_filterMap, ← List.filterMap_eq_filter]
  refine List.filterMap_congr fun place _ => ?_
  rw [List.getElem?_zipIdx, Nat.zero_add]
  cases hitem : items[place]? with
  | none => simp [Option.guard, hitem]
  | some item => cases htakes : takes item <;> simp [Option.guard, hitem, htakes]

theorem filter_reorder_zipIdx (hperm : order.Perm (List.range items.length))
    (hsorted : (order.filter (items[·]?.any takes)).Pairwise (· < ·)) :
    (reorder order items.zipIdx).filter (takes ·.1) = items.zipIdx.filter (takes ·.1) := by
  have hlength : items.zipIdx.length = items.length := List.length_zipIdx
  have hrange : reorder (List.range items.length) items.zipIdx = items.zipIdx := by
    rw [← hlength, reorder_range]
  have hpairs : (reorder order items.zipIdx).Perm items.zipIdx :=
    reorder_perm (hlength.symm ▸ hperm)
  have hbefore : (items.zipIdx.filter (takes ·.1)).Pairwise (·.2 < ·.2) := by
    rw [← List.pairwise_map, ← hrange, map_snd_filter_reorder]
    exact List.pairwise_lt_range.filter _
  have hafter : ((reorder order items.zipIdx).filter (takes ·.1)).Pairwise (·.2 < ·.2) := by
    rw [← List.pairwise_map, map_snd_filter_reorder]
    exact hsorted
  refine List.Perm.eq_of_pairwise (fun first second _ _ hfirst hsecond => ?_) hafter hbefore
    (hpairs.filter _)
  exact absurd hfirst (Nat.lt_asymm hsecond)

/-- The result for an item with its place, given those of the items with these places. -/
def resultAt (held : α → β) (places : List Nat) (results : List β) (pair : α × Nat) : β :=
  ((places.zip results).lookup pair.2).getD (held pair.1)

theorem resultAt_of_not_mem {held : α → β} {places : List Nat} {pair : α × Nat} (h : pair.2 ∉ places)
    (results : List β) : resultAt held places results pair = held pair.1 := by
  have hnone : (places.zip results).lookup pair.2 = none := by
    rw [List.lookup_eq_none_iff]
    rintro ⟨place, result⟩ hmem
    have hne : pair.2 ≠ place := fun heq => h (heq ▸ (List.of_mem_zip hmem).1)
    simpa using hne
  rw [resultAt, hnone]
  rfl

theorem resultAt_cons_self (held : α → β) (places : List Nat) (result : β) (results : List β)
    (pair : α × Nat) : resultAt held (pair.2 :: places) (result :: results) pair = result := by
  simp [resultAt]

theorem resultAt_cons_of_ne {pair : α × Nat} {place : Nat} (h : pair.2 ≠ place) (held : α → β)
    (places : List Nat) (result : β) (results : List β) :
    resultAt held (place :: places) (result :: results) pair = resultAt held places results pair := by
  have hne : (pair.2 == place) = false := by simpa using h
  unfold resultAt
  rw [List.zip_cons_cons, List.lookup_cons, hne]

/-- Where all readers but some are known to take nothing, those few are read and the others filled in. -/
theorem mapM_eq_resultAt {read : α → Reader β} {held : α → β} {pairs : List (α × Nat)}
    (hplaces : (pairs.map Prod.snd).Nodup)
    (hheld : ∀ pair ∈ pairs, takes pair.1 = false → read pair.1 = pure (held pair.1)) :
    pairs.mapM (read ·.1) =
      (fun results => pairs.map
        (resultAt held ((pairs.filter (takes ·.1)).map Prod.snd) results)) <$>
          (pairs.filter (takes ·.1)).mapM (read ·.1) := by
  induction pairs with
  | nil => rfl
  | cons pair pairs ih =>
    obtain ⟨hnew, hrest⟩ := List.nodup_cons.mp hplaces
    have ih := ih hrest fun other hmem => hheld other (List.mem_cons_of_mem _ hmem)
    rw [List.mapM_cons, ih]
    cases htakes : takes pair.1 with
    | true =>
      have hfirst : (pair :: pairs).filter (takes ·.1) = pair :: pairs.filter (takes ·.1) :=
        List.filter_cons_of_pos htakes
      rw [hfirst, List.mapM_cons]
      simp only [map_bind, bind_map_left, map_pure, List.map_cons]
      refine congrArg _ (funext fun result => congrArg _ (funext fun results => congrArg pure ?_))
      rw [resultAt_cons_self]
      refine congrArg _ (List.map_congr_left fun other hother => ?_)
      have hne : other.2 ≠ pair.2 := fun heq => hnew (heq ▸ List.mem_map_of_mem hother)
      rw [resultAt_cons_of_ne hne]
    | false =>
      have hnot : pair.2 ∉ (pairs.filter (takes ·.1)).map Prod.snd := by
        intro hmem
        obtain ⟨other, hother, hplace⟩ := List.mem_map.mp hmem
        exact hnew (hplace ▸ List.mem_map_of_mem (List.mem_of_mem_filter hother))
      rw [List.filter_cons_of_neg (by simp [htakes]), hheld pair List.mem_cons_self htakes]
      simp only [pure_bind, List.map_cons, resultAt_of_not_mem hnot, bind_map_left]
      rfl

theorem mapM_reorder [Nonempty β] {read : α → Reader β} (hperm : order.Perm (List.range items.length))
    (hsorted : (order.filter (items[·]?.any takes)).Pairwise (· < ·))
    (hheld : ∀ item ∈ items, takes item = false → ∃ result, read item = pure result) :
    (reorder order items).mapM read = reorder order <$> items.mapM read := by
  choose! held hheld using hheld
  have hpairs : (reorder order items.zipIdx).Perm items.zipIdx :=
    reorder_perm (List.length_zipIdx.symm ▸ hperm)
  have hplaces : (items.zipIdx.map Prod.snd).Nodup := by
    rw [List.zipIdx_map_snd]
    exact List.nodup_range' 1
  have hread := mapM_eq_resultAt hplaces fun pair hmem =>
    hheld pair.1 (List.fst_mem_of_mem_zipIdx hmem)
  have hreordered := mapM_eq_resultAt ((hpairs.map Prod.snd).nodup_iff.mpr hplaces) fun pair hmem =>
    hheld pair.1 (List.fst_mem_of_mem_zipIdx (hpairs.subset hmem))
  rw [filter_reorder_zipIdx hperm hsorted] at hreordered
  calc
    (reorder order items).mapM read = (reorder order items.zipIdx).mapM (read ·.1) := by
      rw [← List.zipIdx_map_fst 0 items, reorder_map, List.mapM_map, List.zipIdx_map_fst]
      rfl
    _ = reorder order <$> items.zipIdx.mapM (read ·.1) := by
      rw [hreordered, hread, Functor.map_map]
      simp only [reorder_map]
    _ = reorder order <$> items.mapM read := by
      rw [← List.zipIdx_map_fst 0 items, List.mapM_map, List.zipIdx_map_fst]
      rfl

end Lists

namespace Operand

variable {context : Context} {opcode other : UInt8} {modeByte : Option ModeByte}
  {specs : List OperandSpec} {order : List Nat} {rm held : Option Operand}

def readAt (context : Context) (opcode : UInt8) (modeByte : Option ModeByte) (rm : Option Operand)
    (spec : OperandSpec) : Reader Operand :=
  if spec.mode.usesRm then rm.elim (.invalid .secondRmOperand) pure
  else readPlain context opcode modeByte spec

/-- No more r/m operands are left than there are to put in their places. -/
theorem readAround_eq_mapM (hone : specs.countP (·.mode.usesRm) ≤ held.isSome.toNat)
    (hheld : ∀ operand, held = some operand → rm = some operand) :
    readAround context opcode modeByte held specs = specs.mapM (readAt context opcode modeByte rm) := by
  induction specs generalizing held with
  | nil => rfl
  | cons spec specs ih =>
    rw [List.countP_cons] at hone
    rw [List.mapM_cons]
    unfold readAround
    cases huses : spec.mode.usesRm with
    | true =>
      rw [if_pos huses] at hone
      cases held with
      | none => simp at hone
      | some operand =>
        have hat : readAt context opcode modeByte rm spec = pure operand := by
          rw [readAt, if_pos huses, hheld operand rfl]
          rfl
        have hrest : readAround context opcode modeByte none specs =
            specs.mapM (readAt context opcode modeByte rm) := by
          apply ih
          · simpa using hone
          · intro other hother
            contradiction
        rw [if_pos rfl, hat, pure_bind, hrest]
    | false =>
      have hnot : ¬ spec.mode.usesRm = true := by simp [huses]
      rw [if_neg hnot] at hone
      have hat : readAt context opcode modeByte rm spec = readPlain context opcode modeByte spec :=
        if_neg hnot
      rw [if_neg Bool.false_ne_true, hat, ih hone hheld]

theorem readAt_eq_pure {spec : OperandSpec} (hfield : spec.mode.isField = false)
    (hbyte : spec.mode.usesModeByte = true → modeByte.isSome = true)
    (hrm : spec.mode.usesRm = true → rm.isSome = true) :
    ∃ operand, readAt context opcode modeByte rm spec = pure operand := by
  obtain ⟨mode, type⟩ := spec
  cases mode with
  | rm form =>
    obtain ⟨operand, rfl⟩ := Option.isSome_iff_exists.mp (hrm rfl)
    exact ⟨operand, rfl⟩
  | reg =>
    obtain ⟨byte, rfl⟩ := Option.isSome_iff_exists.mp (hbyte rfl)
    exact ⟨_, rfl⟩
  | opcodeRegister | fixedRegister | one => exact ⟨_, rfl⟩
  | immediate | relative | offset => contradiction

theorem readFirstRm_eq_filter (context : Context) (modeByte : Option ModeByte)
    (specs : List OperandSpec) :
    readFirstRm context modeByte specs = readFirstRm context modeByte (specs.filter (·.mode.usesRm)) := by
  induction specs with
  | nil => rfl
  | cons spec specs ih =>
    obtain ⟨mode, type⟩ := spec
    cases mode with
    | rm form => rfl
    | reg | immediate | relative | opcodeRegister | fixedRegister | one | offset => exact ih

theorem readFirstRm_cases (context : Context) (modeByte : Option ModeByte) (specs : List OperandSpec) :
    specs.countP (·.mode.usesRm) = 0 ∧ readFirstRm context modeByte specs = pure none ∨
      ∃ reader : Reader Operand, readFirstRm context modeByte specs = some <$> reader := by
  induction specs with
  | nil => exact .inl ⟨rfl, rfl⟩
  | cons spec specs ih =>
    obtain ⟨mode, type⟩ := spec
    cases mode with
    | rm form =>
      refine .inr ⟨do readRm context (← requireModeByte modeByte) form (context.width type), ?_⟩
      change (do
        let byte ← requireModeByte modeByte
        return some (← readRm context byte form (context.width type)) : Reader (Option Operand)) = _
      simp only [map_eq_pure_bind, bind_assoc]
    | reg | immediate | relative | opcodeRegister | fixedRegister | one | offset => exact ih

theorem readAll_reorder (context : Context) (opcode : UInt8) (h : Reorders order specs)
    (hone : specs.countP (·.mode.usesRm) ≤ 1)
    (hbyte : ∀ spec ∈ specs, spec.mode.usesModeByte = true → modeByte.isSome = true) :
    readAll context opcode modeByte (reorder order specs) =
      reorder order <$> readAll context opcode modeByte specs := by
  have hperm : (reorder order specs).Perm specs := reorder_perm h.perm
  have hfirst : readFirstRm context modeByte (reorder order specs) =
      readFirstRm context modeByte specs := by
    have hsame : (reorder order specs).filter (·.mode.usesRm) = specs.filter (·.mode.usesRm) := by
      apply eq_of_perm_of_length_le (hperm.filter _)
      rwa [← List.countP_eq_length_filter]
    rw [readFirstRm_eq_filter, hsame, ← readFirstRm_eq_filter]
  have haround : ∀ rm : Option Operand, specs.countP (·.mode.usesRm) ≤ rm.isSome.toNat →
      readAround context opcode modeByte rm (reorder order specs) =
        reorder order <$> readAround context opcode modeByte rm specs := by
    intro rm hcount
    have : Nonempty Operand := ⟨.immediate (.unsigned 1 .byte)⟩
    rw [readAround_eq_mapM hcount fun _ => id,
      readAround_eq_mapM ((hperm.countP_eq _).le.trans hcount) fun _ => id]
    refine mapM_reorder h.perm h.fields fun spec hmem hfield =>
      readAt_eq_pure hfield (hbyte spec hmem) fun huses => ?_
    have hpos : 0 < specs.countP (·.mode.usesRm) := List.countP_pos_iff.mpr ⟨spec, hmem, huses⟩
    cases rm with
    | none => exact absurd hcount (Nat.not_le_of_gt hpos)
    | some operand => rfl
  unfold readAll
  rw [hfirst]
  rcases readFirstRm_cases context modeByte specs with ⟨hnone, hread⟩ | ⟨reader, hread⟩
  · rw [hread, pure_bind, pure_bind, haround none (Nat.le_of_eq hnone)]
  · have hsome : ∀ operand, readAround context opcode modeByte (some operand) (reorder order specs) =
        reorder order <$> readAround context opcode modeByte (some operand) specs :=
      fun operand => haround (some operand) hone
    rw [hread]
    simp only [bind_map_left, map_bind, hsome]

theorem readAll_of_opcode (context : Context) (modeByte : Option ModeByte) (opcode other : UInt8)
    (h : ∀ spec ∈ specs, spec.mode ≠ .opcodeRegister) :
    readAll context other modeByte specs = readAll context opcode modeByte specs := by
  have haround : ∀ rm, readAround context other modeByte rm specs =
      readAround context opcode modeByte rm specs := by
    induction specs with
    | nil => exact fun rm => by cases rm <;> rfl
    | cons spec specs ih =>
      intro rm
      have hplain : readPlain context other modeByte spec = readPlain context opcode modeByte spec := by
        have hmode := h spec List.mem_cons_self
        unfold readPlain
        cases hspec : spec.mode with
        | opcodeRegister => contradiction
        | _ => rfl
      unfold readAround
      simp only [hplain, ih fun other hmem => h other (List.mem_cons_of_mem _ hmem)]
  unfold readAll
  simp only [haround]

end Operand

def Selection.reordered (selection : Selection) (order : List Nat) : Selection :=
  { selection with descriptor := selection.descriptor.reordered order }

def Body.reordered (body : Body) (order : List Nat) : Body :=
  ⟨body.selection.reordered order, reorder order body.operands⟩

def Selection.readOperands (selection : Selection) (context : Context) : Reader Body := do
  return ⟨selection, ← Operand.readAll context selection.key.opcode selection.modeByte
    selection.descriptor.operands⟩

theorem Selection.readOperands_run (selection : Selection) (context : Context) (tail : List UInt8) :
    (selection.readOperands context).run tail =
      ((Operand.readAll context selection.key.opcode selection.modeByte
        selection.descriptor.operands).run tail).map fun read => (⟨selection, read.1⟩, read.2) := by
  rw [readOperands, ← map_eq_pure_bind, run_map]

theorem Descriptor.needsModeByte_reordered {descriptor : Descriptor} {order : List Nat}
    (h : Reorders order descriptor.operands) :
    (descriptor.reordered order).needsModeByte = descriptor.needsModeByte := (reorder_perm h.perm).any_eq

namespace Table

variable {table next : Table} {selection other : Selection} {order : List Nat} {key : OpcodeKey}
  {descriptor : Descriptor} {code : List UInt8}

theorem select_run_of_map {change : OpcodeKey → Descriptor → Descriptor} (hsound : table.Sound)
    (hnext : next.Sound) (hlookup : ∀ key, next.lookup key = (table.lookup key).map (change key))
    (hneeds : ∀ key descriptor, table.lookup key = some descriptor →
      (change key descriptor).needsModeByte = descriptor.needsModeByte)
    (map : OpcodeMap) (opcode : UInt8) (code : List UInt8) :
    (next.select ⟨map, opcode, none⟩).run code =
      ((table.select ⟨map, opcode, none⟩).run code).map fun read =>
        ({ read.1 with descriptor := change read.1.key read.1.descriptor }, read.2) := by
  cases hslot : table.dispatch map opcode with
  | none =>
    have hnone : next.dispatch map opcode = none := by
      refine dispatch_eq_none hnext fun extension => ?_
      rw [hlookup, lookup, hslot]
      rfl
    unfold select
    simp only [hslot, hnone]
    rfl
  | some entry =>
    cases entry with
    | instruction descriptor =>
      have hheld := lookup_of_dispatch_instruction hslot
      have hchanged := hlookup ⟨map, opcode, none⟩
      rw [hheld] at hchanged
      have hsame := hneeds _ _ hheld
      unfold select
      simp only [hslot, dispatch_of_lookup_none hchanged, hsame]
      cases descriptor.needsModeByte with
      | false => rfl
      | true => cases code <;> rfl
    | group group =>
      have hgroup := lookup_of_dispatch_group hslot
      obtain ⟨extension, member, hmember⟩ := hsound.group map opcode group hslot
      have hfirst := hlookup ⟨map, opcode, some extension⟩
      rw [hgroup, hmember] at hfirst
      obtain ⟨larger, hlarger, -⟩ := dispatch_of_lookup_some hfirst
      cases code with
      | nil =>
        rw [select_run_nil (.inr ⟨extension, member, (hgroup extension).trans hmember⟩),
          select_run_nil (.inr ⟨extension, _, hfirst⟩)]
        rfl
      | cons byte rest =>
        have hfound := hlookup ⟨map, opcode, some (ModeByte.ofByte byte).reg.val⟩
        rw [lookup_of_dispatch_group hlarger, hgroup] at hfound
        rw [select_group_run hslot, select_group_run hlarger, hfound]
        cases group.member (ModeByte.ofByte byte).reg <;> rfl

theorem readOperands_run_reordered (other : Selection) (hsound : table.Sound)
    (hgrants : table.Grants selection)
    (horder : Reorders order selection.descriptor.operands)
    (hmodeByte : other.modeByte = selection.modeByte)
    (hdescriptor : other.descriptor = selection.descriptor.reordered order)
    (hopcode : other.key.opcode = selection.key.opcode ∨
      ∀ spec ∈ selection.descriptor.operands, spec.mode ≠ .opcodeRegister)
    (context : Context) (tail : List UInt8) :
    (other.readOperands context).run tail =
      ((selection.readOperands context).run tail).map fun read =>
        (⟨other, reorder order read.1.operands⟩, read.2) := by
  have hsame : Operand.readAll context other.key.opcode selection.modeByte selection.descriptor.operands =
      Operand.readAll context selection.key.opcode selection.modeByte selection.descriptor.operands := by
    rcases hopcode with hopcode | hfree
    · rw [hopcode]
    · exact Operand.readAll_of_opcode _ _ _ _ hfree
  have hread : Operand.readAll context other.key.opcode other.modeByte other.descriptor.operands =
      reorder order <$> Operand.readAll context selection.key.opcode selection.modeByte
        selection.descriptor.operands := by
    rw [hmodeByte, hdescriptor, ← hsame]
    exact Operand.readAll_reorder _ _ horder (Descriptor.countP_usesRm_le (hgrants.selects.defect hsound))
      hgrants.selects.isSome_of_usesModeByte
  rw [Selection.readOperands_run, Selection.readOperands_run, hread, run_map]
  cases (Operand.readAll context selection.key.opcode selection.modeByte
    selection.descriptor.operands).run tail <;> rfl

theorem readBody_run_reordered (hsound : table.Sound) (hnext : next.Sound)
    (horder : Reorders order descriptor.operands) (hkey : table.lookup key = some descriptor)
    (hlookup : ∀ other, next.lookup other =
      if other = key then some (descriptor.reordered order) else table.lookup other)
    (context : Context) (code : List UInt8) :
    (next.readBody context).run code =
      ((table.readBody context).run code).map fun read =>
        (if read.1.selection.key = key then read.1.reordered order else read.1, read.2) := by
  let change : OpcodeKey → Descriptor → Descriptor :=
    fun other held => if other = key then held.reordered order else held
  have hmap : ∀ other, next.lookup other = (table.lookup other).map (change other) := by
    intro other
    rw [hlookup]
    by_cases hother : other = key
    · rw [if_pos hother, hother, hkey]
      simp [change]
    · simp [change, hother]
  have hneeds : ∀ other held, table.lookup other = some held →
      (change other held).needsModeByte = held.needsModeByte := by
    intro other held hheld
    by_cases hother : other = key
    · rw [hother, hkey] at hheld
      obtain rfl := Option.some.inj hheld
      simp [change, hother, Descriptor.needsModeByte_reordered horder]
    · simp [change, hother]
  rw [readBody_run_eq, readBody_run_eq]
  cases hread : OpcodeKey.read.run code with
  | error halt => rfl
  | ok read =>
    obtain ⟨⟨map, opcode, extension⟩, rest⟩ := read
    obtain rfl : extension = none := OpcodeKey.extension_of_read hread
    change ((next.select ⟨map, opcode, none⟩).run rest >>= _) =
      ((table.select ⟨map, opcode, none⟩).run rest >>= _).map _
    rw [select_run_of_map hsound hnext hmap hneeds]
    cases hselect : (table.select ⟨map, opcode, none⟩).run rest with
    | error halt => rfl
    | ok selected =>
      obtain ⟨selection, tail⟩ := selected
      obtain ⟨-, -, hgrants, -⟩ := grants_of_select_run hselect
      change ((⟨selection.key, change selection.key selection.descriptor, selection.modeByte⟩ :
        Selection).readOperands context).run tail = ((selection.readOperands context).run tail).map _
      by_cases hselection : selection.key = key
      · have hheld := hgrants.lookup_eq
        rw [hselection, hkey] at hheld
        obtain rfl := Option.some.inj hheld
        have hchange : change selection.key selection.descriptor =
            selection.descriptor.reordered order := if_pos hselection
        have hread := readOperands_run_reordered (selection.reordered order) hsound hgrants horder rfl
          rfl (.inl rfl) context tail
        rw [hchange]
        refine hread.trans ?_
        rw [Selection.readOperands_run]
        cases (Operand.readAll context selection.key.opcode selection.modeByte
          selection.descriptor.operands).run tail with
        | error halt => rfl
        | ok read => simp [Except.map, hselection, Body.reordered]
      · have hsame : change selection.key selection.descriptor = selection.descriptor :=
          if_neg hselection
        rw [hsame, Selection.readOperands_run]
        cases (Operand.readAll context selection.key.opcode selection.modeByte
          selection.descriptor.operands).run tail with
        | error halt => rfl
        | ok read => simp [Except.map, hselection]

theorem Locates.readBody_run {tail : List UInt8} (h : table.Locates code selection tail)
    (context : Context) :
    (table.readBody context).run code = (selection.readOperands context).run tail := by
  obtain ⟨bytes, byte, hspells, hgrants, hbyte, rfl⟩ := h
  rw [Table.readBody_run hspells, hgrants.select_run hbyte]
  rfl

/-- Two opcodes whose instructions have the same operands, in whatever order, select in front of the same
bytes, or both find the end of the code. -/
theorem locates_twin {map : OpcodeMap} {opcode twin : UInt8}
    {bytes twins : List UInt8} (hbytes : Spells bytes map opcode) (htwins : Spells twins map twin)
    (horder : Reorders order descriptor.operands)
    (hkey : table.lookup ⟨map, opcode, none⟩ = some descriptor)
    (htwin : table.lookup ⟨map, twin, none⟩ = some (descriptor.reordered order)) (rest : List UInt8) :
    (∃ modeByte tail, table.Locates (bytes ++ rest) ⟨⟨map, opcode, none⟩, descriptor, modeByte⟩ tail ∧
      table.Locates (twins ++ rest) ⟨⟨map, twin, none⟩, descriptor.reordered order, modeByte⟩ tail) ∨
      ∀ sizes, table.Lacks sizes (bytes ++ rest) ∧ table.Lacks sizes (twins ++ rest) := by
  have hneeds := Descriptor.needsModeByte_reordered horder
  cases hbyte : descriptor.needsModeByte with
  | false =>
    rw [hbyte] at hneeds
    exact .inl ⟨none, rest, ⟨bytes, none, hbytes, .plain hkey hbyte, rfl, rfl⟩,
      ⟨twins, none, htwins, .plain htwin hneeds, rfl, rfl⟩⟩
  | true =>
    rw [hbyte] at hneeds
    cases rest with
    | nil =>
      rw [List.append_nil, List.append_nil]
      exact .inr fun sizes => ⟨.modeByte hbytes (.inl ⟨_, hkey, hbyte⟩),
        .modeByte htwins (.inl ⟨_, htwin, hneeds⟩)⟩
    | cons raw tail =>
      exact .inl ⟨some (.ofByte raw), tail,
        ⟨bytes, some raw, hbytes, .withModeByte hkey hbyte, rfl, rfl⟩,
        ⟨twins, some raw, htwins, .withModeByte htwin hneeds, rfl, rfl⟩⟩

end Table

def Reading.reordered (reading : Reading) (order : List Nat) : Reading :=
  { reading with body := reading.body.reordered order }

theorem Reading.instruction_reordered {reading : Reading} {order : List Nat} (other : Selection)
    (hkind : reading.body.selection.descriptor.kind = .general)
    (hlength : reading.body.operands.length = reading.body.selection.descriptor.operands.length)
    (horder : Reorders order reading.body.selection.descriptor.operands)
    (hdescriptor : other.descriptor = reading.body.selection.descriptor.reordered order)
    (config : Config) (code second : List UInt8) (start : Nat) (base : Option UInt64) :
    Reading.instruction { reading with body := ⟨other, reorder order reading.body.operands⟩ } config
        second start base =
      { (reading.instruction config code start base).reordered order with
        encoding := second.take reading.size } := by
  have hperm : (reorder order reading.body.operands).Perm reading.body.operands :=
    reorder_perm (hlength ▸ horder.perm)
  have hshape : ∀ width next, Instruction.shapeOf .general (reorder order reading.body.operands) width next =
      Instruction.shapeOf .general reading.body.operands width next := by
    intro width next
    unfold Instruction.shapeOf
    rw [hperm.isEmpty_eq]
  unfold Reading.instruction Instruction.reordered
  simp only [hdescriptor, Descriptor.reordered, hkind, hshape]
  rfl

namespace Decoder

variable {decoder next : Decoder} {order : List Nat} {key : OpcodeKey} {descriptor : Descriptor}

theorem length_of_readCode {code : List UInt8} {reading : Reading}
    (h : decoder.readCode code = .ok reading) :
    reading.body.operands.length = reading.body.selection.descriptor.operands.length := by
  unfold readCode readBehind at h
  obtain ⟨read, hread, rfl⟩ := map_eq_ok_iff.mp h
  exact Table.ensures_readBody _ _ _ _ hread

theorem readCode_reordered (hsound : decoder.table.Sound) (hnext : next.table.Sound)
    (hconfig : next.config = decoder.config) (horder : Reorders order descriptor.operands)
    (hkey : decoder.table.lookup key = some descriptor)
    (hlookup : ∀ other, next.table.lookup other =
      if other = key then some (descriptor.reordered order) else decoder.table.lookup other)
    (code : List UInt8) :
    next.readCode code = (decoder.readCode code).map fun reading =>
      if reading.body.selection.key = key then reading.reordered order else reading := by
  unfold readCode readBehind
  rw [hconfig, Table.readBody_run_reordered hsound hnext horder hkey hlookup]
  cases (decoder.table.readBody (decoder.config.context (.ofRun (code.takeWhile Prefix.isByte)))).run
    (code.dropWhile Prefix.isByte) with
  | error halt => rfl
  | ok read =>
    by_cases hread : read.1.selection.key = key
    · simp [Except.map, hread, Reading.reordered]
    · simp [Except.map, hread]

/-- Where the one key is found the operands come in the other order, and elsewhere nothing changes. -/
theorem decode_reordered_of_lookup (hsound : decoder.table.Sound) (hnext : next.table.Sound)
    (hconfig : next.config = decoder.config) (hkind : descriptor.kind = .general)
    (horder : Reorders order descriptor.operands)
    (hkey : decoder.table.lookup key = some descriptor)
    (hlookup : ∀ other, next.table.lookup other =
      if other = key then some (descriptor.reordered order) else decoder.table.lookup other)
    (image : List UInt8) (start : Nat) (base : Option UInt64) :
    (decoder.Finds image start key descriptor → next.decode image start base =
      (decoder.decode image start base).map (·.reordered order)) ∧
    (¬ decoder.Finds image start key descriptor →
      next.decode image start base = decoder.decode image start base) := by
  have hread := readCode_reordered hsound hnext hconfig horder hkey hlookup (image.drop start)
  have hsize : ∀ reading : Reading,
      (if reading.body.selection.key = key then reading.reordered order else reading).size =
        reading.size := by
    intro reading
    split <;> rfl
  constructor
  · intro hfinds
    obtain ⟨modeByte, tail, hlocates⟩ := finds_iff.mp hfinds
    refine decode_of_map hread (by rw [hconfig]) rfl hsize fun reading hcode => ?_
    obtain ⟨behind, _, hfound, -⟩ := exists_locates_of_readCode hcode
    obtain ⟨hselection, -⟩ := hfound.unique (fun _ _ => PrefixState.isByte_of_dropWhile) hlocates
    have hdescriptor : reading.body.selection.descriptor = descriptor := by rw [hselection]
    rw [if_pos (by rw [hselection]), hconfig]
    exact Reading.instruction_reordered (reading.body.selection.reordered order)
      (by rw [hdescriptor, hkind]) (length_of_readCode hcode) (by rwa [hdescriptor]) rfl decoder.config
      (image.drop start) (image.drop start) start base
  · intro hmissing
    calc
      next.decode image start base = (decoder.decode image start base).map id := by
        refine decode_of_map hread (by rw [hconfig]) rfl hsize fun reading hcode => ?_
        obtain ⟨tail, _, hfound, -⟩ := exists_locates_of_readCode hcode
        have hne : reading.body.selection.key ≠ key := by
          intro heq
          have hheld := hfound.lookup_eq
          rw [heq, hkey] at hheld
          refine hmissing (finds_iff.mpr ⟨reading.body.selection.modeByte, tail, ?_⟩)
          rwa [← heq, Option.some.inj hheld]
        rw [if_neg hne, hconfig]
        rfl
      _ = decoder.decode image start base := by cases decoder.decode image start base <;> rfl

theorem selection_of_readBehind {run code tail : List UInt8} {selection : Selection} {reading : Reading}
    (h : decoder.table.Locates code selection tail) (hread : decoder.readBehind run code = .ok reading) :
    reading.body.selection = selection := by
  unfold readBehind at hread
  obtain ⟨read, hbody, rfl⟩ := map_eq_ok_iff.mp hread
  rw [h.readBody_run, Selection.readOperands_run] at hbody
  obtain ⟨operands, -, rfl⟩ := map_eq_ok_iff.mp hbody
  rfl

theorem readBehind_twin (hsound : decoder.table.Sound) {code second tail : List UInt8}
    {selection other : Selection} (hlocates : decoder.table.Locates code selection tail)
    (hother : decoder.table.Locates second other tail) (hlength : second.length = code.length)
    (horder : Reorders order selection.descriptor.operands)
    (hmodeByte : other.modeByte = selection.modeByte)
    (hdescriptor : other.descriptor = selection.descriptor.reordered order)
    (hopcode : other.key.opcode = selection.key.opcode ∨
      ∀ spec ∈ selection.descriptor.operands, spec.mode ≠ .opcodeRegister) (run : List UInt8) :
    decoder.readBehind run second = (decoder.readBehind run code).map fun reading =>
      { reading with body := ⟨other, reorder order reading.body.operands⟩ } := by
  have hread := hother.readBody_run (decoder.config.context (.ofRun run))
  have hgrants : decoder.table.Grants selection := by
    obtain ⟨_, _, -, hgrants, -⟩ := hlocates
    exact hgrants
  unfold readBehind
  rw [hread, hlocates.readBody_run,
    Table.readOperands_run_reordered other hsound hgrants horder hmodeByte hdescriptor hopcode]
  cases (selection.readOperands (decoder.config.context (.ofRun run))).run tail with
  | error halt => rfl
  | ok read => simp only [Except.map, hlength]

/-- In the place of one opcode, another is decoded to the same but for the order of the operands. -/
def Mirrors (decoder : Decoder) (map : OpcodeMap) (opcode twin : UInt8) (order : List Nat) : Prop :=
  ∀ (front run bytes twins rest : List UInt8) (base : Option UInt64),
    (∀ byte ∈ run, Prefix.isByte byte = true) → Spells bytes map opcode → Spells twins map twin →
    decoder.decode (front ++ (run ++ (twins ++ rest))) front.length base =
      (decoder.decode (front ++ (run ++ (bytes ++ rest))) front.length base).map fun found =>
        { found.reordered order with encoding := (run ++ (twins ++ rest)).take found.size }

theorem mirrors_of_lookup {map : OpcodeMap} {opcode twin : UInt8} (hsound : decoder.table.Sound)
    (hkind : descriptor.kind = .general) (horder : Reorders order descriptor.operands)
    (hfree : ∀ spec ∈ descriptor.operands, spec.mode ≠ .opcodeRegister)
    (hkey : decoder.table.lookup ⟨map, opcode, none⟩ = some descriptor)
    (htwin : decoder.table.lookup ⟨map, twin, none⟩ = some (descriptor.reordered order)) :
    decoder.Mirrors map opcode twin order := by
  intro front run bytes twins rest base hrun hbytes htwins
  have hlength : (front ++ (run ++ (twins ++ rest))).length =
      (front ++ (run ++ (bytes ++ rest))).length := by
    simp only [List.length_append, hbytes.length_bytes, htwins.length_bytes]
  have hcode : ∀ {spelled : List UInt8} {number : UInt8}, Spells spelled map number →
      decoder.readCode ((front ++ (run ++ (spelled ++ rest))).drop front.length) =
        decoder.readBehind run (spelled ++ rest) := by
    intro spelled number hspelled
    rw [List.drop_left, readCode_of_spells hrun hspelled]
  rcases Table.locates_twin hbytes htwins horder hkey htwin rest with
    ⟨modeByte, tail, hlocates, hother⟩ | hlacks
  · have hread := readBehind_twin hsound hlocates hother (by simp [hbytes.length_bytes, htwins.length_bytes])
      horder rfl rfl (.inr hfree) run
    rw [← hcode hbytes, ← hcode htwins] at hread
    refine decode_of_map hread rfl hlength (fun _ => rfl) fun reading hreading => ?_
    have hlengths := length_of_readCode hreading
    obtain ⟨-, hinside, -⟩ := readCode_take_size hreading
    have hsize := reading.size_instruction hinside decoder.config front.length base
    rw [hcode hbytes] at hreading
    have hselection := selection_of_readBehind hlocates hreading
    have hdescriptor : reading.body.selection.descriptor = descriptor := by rw [hselection]
    have hdrop : (front ++ (run ++ (twins ++ rest))).drop front.length = run ++ (twins ++ rest) :=
      List.drop_left
    rw [hsize, hdrop]
    exact Reading.instruction_reordered ⟨⟨map, twin, none⟩, descriptor.reordered order, modeByte⟩
      (by rw [hdescriptor, hkind]) hlengths (by rwa [hdescriptor]) (by rw [hdescriptor]) decoder.config _ _
      front.length base
  · have hread : decoder.readCode ((front ++ (run ++ (twins ++ rest))).drop front.length) =
        (decoder.readCode ((front ++ (run ++ (bytes ++ rest))).drop front.length)).map id := by
      rw [hcode hbytes, hcode htwins, readBehind_of_lacks hsound (hlacks _).1,
        readBehind_of_lacks hsound (hlacks _).2]
      rfl
    refine decode_of_map hread rfl hlength (fun _ => rfl) fun reading hreading => ?_
    rw [hcode hbytes, readBehind_of_lacks hsound (hlacks _).1] at hreading
    contradiction

/-- Where two tables differ in the order of one instruction's operands, so do the instructions that are decoded
by them, and in nothing else. Two opcodes of one table whose operands differ so are mirror images: one in the
place of the other is decoded to the same but for that order. -/
theorem decode_reordered (calls others : List (OpcodeKey × Descriptor)) (config : Config)
    {key : OpcodeKey} {descriptor : Descriptor} {order : List Nat} (hkind : descriptor.kind = .general)
    (horder : Reorders order descriptor.operands)
    (hkey : (Table.ofCalls calls).lookup key = some descriptor)
    (hothers : ∀ other, (Table.ofCalls others).lookup other =
      if other = key then some (descriptor.reordered order) else (Table.ofCalls calls).lookup other) :
    (∀ image start base,
      ((Decoder.mk (.ofCalls calls) config).Finds image start key descriptor →
        (Decoder.mk (.ofCalls others) config).decode image start base =
          ((Decoder.mk (.ofCalls calls) config).decode image start base).map (·.reordered order)) ∧
      (¬ (Decoder.mk (.ofCalls calls) config).Finds image start key descriptor →
        (Decoder.mk (.ofCalls others) config).decode image start base =
          (Decoder.mk (.ofCalls calls) config).decode image start base)) ∧
    ∀ twin, key.extension = none → (∀ spec ∈ descriptor.operands, spec.mode ≠ .opcodeRegister) →
      (Table.ofCalls calls).lookup ⟨key.map, twin, none⟩ = some (descriptor.reordered order) →
      (Decoder.mk (.ofCalls calls) config).Mirrors key.map key.opcode twin order := by
  have hsound : (Decoder.mk (.ofCalls calls) config).table.Sound := Table.sound_ofCalls calls
  have hnext : (Decoder.mk (.ofCalls others) config).table.Sound := Table.sound_ofCalls others
  refine ⟨decode_reordered_of_lookup hsound hnext rfl hkind horder hkey hothers, ?_⟩
  intro twin hextension hfree htwin
  obtain ⟨map, opcode, extension⟩ := key
  obtain rfl : extension = none := hextension
  exact mirrors_of_lookup hsound hkind horder hfree hkey htwin

theorem mirrors_arithmetic (config : Config) {number : Nat} {name : String}
    (h : (number, name) ∈ Builtin.arithmeticNames) :
    (Decoder.mk .builtin config).Mirrors .primary (.ofNat (8 * number)) (.ofNat (8 * number + 2)) [1, 0] ∧
      (Decoder.mk .builtin config).Mirrors .primary (.ofNat (8 * number + 1)) (.ofNat (8 * number + 3))
        [1, 0] := by
  have hlookup : ∀ (opcode : Nat) (descriptor : Descriptor),
      Builtin.primary opcode descriptor ∈ Builtin.arithmetic →
        Table.builtin.lookup ⟨.primary, .ofNat opcode, none⟩ = some descriptor :=
    fun _ _ => Table.lookup_of_mem_arithmetic
  have hbytes := hlookup (8 * number) (Builtin.general name [Builtin.Eb, Builtin.Gb])
    (List.mem_flatMap.mpr ⟨(number, name), h, by simp⟩)
  have hbytesTwin := hlookup (8 * number + 2) (Builtin.general name [Builtin.Gb, Builtin.Eb])
    (List.mem_flatMap.mpr ⟨(number, name), h, by simp⟩)
  have hwords := hlookup (8 * number + 1) (Builtin.general name [Builtin.Ev, Builtin.Gv])
    (List.mem_flatMap.mpr ⟨(number, name), h, by simp⟩)
  have hwordsTwin := hlookup (8 * number + 3) (Builtin.general name [Builtin.Gv, Builtin.Ev])
    (List.mem_flatMap.mpr ⟨(number, name), h, by simp⟩)
  have hsound := Table.sound_builtin
  generalize Table.builtin = table at hbytes hbytesTwin hwords hwordsTwin hsound ⊢
  constructor
  · apply mirrors_of_lookup hsound rfl (.swap (.inl rfl)) ?_ hbytes hbytesTwin
    simp [Builtin.general, Builtin.Eb, Builtin.Gb]
  · apply mirrors_of_lookup hsound rfl (.swap (.inl rfl)) ?_ hwords hwordsTwin
    simp [Builtin.general, Builtin.Ev, Builtin.Gv]

theorem decode_reordered_add : ∃ add : Instruction,
    let store := Builtin.primary 0x01 (Builtin.general "add" [Builtin.Ev, Builtin.Gv])
    let load := Builtin.primary 0x03 (Builtin.general "add" [Builtin.Gv, Builtin.Ev])
    let swapped := Builtin.primary 0x01 (Builtin.general "add" [Builtin.Gv, Builtin.Ev])
    decode ⟨.ofCalls [store, load], {}⟩ [0x66, 0x01, 0x48, 0x04] 0 none = .ok add ∧
      decode ⟨.ofCalls [swapped, load], {}⟩ [0x66, 0x01, 0x48, 0x04] 0 none =
        .ok (add.reordered [1, 0]) ∧
      decode ⟨.ofCalls [store, load], {}⟩ [0x66, 0x03, 0x48, 0x04] 0 none =
        .ok { add.reordered [1, 0] with encoding := [0x66, 0x03, 0x48, 0x04] } := by
  let add : Instruction := {
    mnemonic := "add"
    shape := .operation
    operands := [.memory ⟨some (.general 0 .dword), none, 1, .disp8 4, none, .dword⟩ .word,
      .register (.general 1 .word)]
    encoding := [0x66, 0x01, 0x48, 0x04]
    offset := 0
    address := none
    prefixes := { operandSize := true } }
  refine ⟨add, ?_⟩
  intro store load swapped
  have hadd : decode ⟨.ofCalls [store, load], {}⟩ [0x66, 0x01, 0x48, 0x04] 0 none = .ok add := by
    decide +kernel
  have hstore := Table.lookup_ofCalls_iff [store, load] (by decide +kernel)
  have hswapped := Table.lookup_ofCalls_iff [swapped, load] (by decide +kernel)
  have hothers : ∀ other, (Table.ofCalls [swapped, load]).lookup other =
      if other = store.1 then some (store.2.reordered [1, 0])
      else (Table.ofCalls [store, load]).lookup other := by
    intro other
    split
    · next hother =>
      rw [hother, hswapped]
      exact List.mem_cons_self
    · next hother =>
      have hswappedNe : ∀ held, (other, held) ≠ swapped := fun held h => hother (congrArg Prod.fst h)
      have hstoreNe : ∀ held, (other, held) ≠ store := fun held h => hother (congrArg Prod.fst h)
      apply Option.ext
      intro held
      rw [hswapped, hstore, List.mem_cons, List.mem_cons]
      simp [hswappedNe, hstoreNe]
  obtain ⟨htables, hmirrors⟩ := decode_reordered [store, load] [swapped, load] {} rfl
    (.swap (.inl rfl)) ((hstore store.1 store.2).mpr List.mem_cons_self) hothers
  have hfinds : Finds ⟨.ofCalls [store, load], {}⟩ [0x66, 0x01, 0x48, 0x04] 0 store.1 store.2 :=
    ⟨⟨store.1, store.2, some (.ofByte 0x48)⟩, ⟨0, 3⟩, rfl, rfl, by decide +kernel⟩
  have hother := (htables _ _ none).1 hfinds
  have hmirror := hmirrors 0x03 rfl (by decide)
    ((hstore load.1 load.2).mpr (List.mem_cons_of_mem _ List.mem_cons_self))
    [] [0x66] [0x01] [0x03] [0x48, 0x04] none (List.forall_mem_singleton.mpr rfl)
    (.primary rfl (by decide)) (.primary rfl (by decide))
  rw [hadd] at hother
  refine ⟨hadd, hother, hmirror.trans ?_⟩
  exact congrArg (Except.map _) hadd

end Decoder
end IA32
