import IA32.Proofs.EffectiveAddress
import IA32.Proofs.MemoryOperands
import IA32.Proofs.Texts

set_option autoImplicit false

namespace IA32

open Reader

/-- Both operands name the same register or constant, or a place of the same width that is the same whatever the
registers hold. -/
inductive Operand.Agrees : Operand → Operand → Prop where
  | register (source : Register) : Agrees (.register source) (.register source)
  | immediate {constant other : Immediate} : constant.value = other.value →
      Agrees (.immediate constant) (.immediate other)
  | memory {address other : MemoryAddress} {width : Width} : address.segment = other.segment →
      (∀ values, address.effective values = other.effective values) →
      Agrees (.memory address width) (.memory other width)

structure Term where
  register : Register
  factor : Nat
  deriving DecidableEq, Repr

namespace Term

def chars (term : Term) : List Char := (MemoryAddress.indexText term.register term.factor).toList

def factors : List Nat := [1, 2, 4, 8]

def IsNamed (term : Term) : Prop := term.register ∈ Register.named ∧ term.factor ∈ factors

def isSign (char : Char) : Bool := char = '+' || char = '-'

def factorText (factor : Nat) : List Char :=
  if factor = 1 then [] else '*' :: (toString factor).toList

variable {term other : Term}

theorem chars_eq (term : Term) : term.chars = term.register.name.toList ++ factorText term.factor := by
  unfold chars MemoryAddress.indexText factorText
  split
  · exact (List.append_nil _).symm
  · simp only [String.toList_append, List.append_assoc]
    rfl

theorem factorText_injOn : ∀ factor ∈ factors, ∀ other ∈ factors,
    factorText factor = factorText other → factor = other := by decide

theorem factorText_chars : ∀ factor ∈ factors,
    (factorText factor).head?.all (· = '*') = true ∧
      (factorText factor).all (!isSign ·) = true := by decide

theorem isSign_of_isLower {char : Char} (h : char.isLower = true) : isSign char = false := by
  have hplus : char ≠ '+' := by
    rintro rfl
    contradiction
  have hminus : char ≠ '-' := by
    rintro rfl
    contradiction
  simp [isSign, hplus, hminus]

theorem chars_inj (hterm : term.IsNamed) (hother : other.IsNamed) (h : term.chars = other.chars) :
    term = other := by
  have hname : ∀ register ∈ Register.named, ∀ char ∈ register.name.toList, decide (char = '*') = false :=
    fun register hregister => ne_of_isWord (Register.isWord_name register hregister) rfl
  have hstar : ∀ factor ∈ factors, ∀ char ∈ (factorText factor).head?, decide (char = '*') = true := by
    intro factor hfactor char hchar
    have hhead := (factorText_chars factor hfactor).1
    rw [hchar] at hhead
    exact hhead
  rw [chars_eq, chars_eq] at h
  obtain ⟨hname, hfactor⟩ := append_inj_of_stops (decide <| · = '*') (hname _ hterm.1)
    (hname _ hother.1) (hstar _ hterm.2) (hstar _ hother.2) h
  obtain ⟨register, factor⟩ := term
  obtain ⟨source, times⟩ := other
  obtain rfl := Register.name_injOn _ hterm.1 _ hother.1 (String.toList_injective hname)
  obtain rfl := factorText_injOn _ hterm.2 _ hother.2 hfactor
  rfl

theorem isSign_chars (h : term.IsNamed) : ∀ char ∈ term.chars, isSign char = false := by
  intro char hchar
  rw [chars_eq, List.mem_append] at hchar
  rcases hchar with hname | hfactor
  · exact isSign_of_isLower (isLower_of_isWord (Register.isWord_name _ h.1) char hname)
  · simpa using List.all_eq_true.mp (factorText_chars _ h.2).2 char hfactor

theorem exists_chars_eq_cons (h : term.IsNamed) :
    ∃ char more, term.chars = char :: more ∧ char.isLower = true := by
  obtain ⟨char, more, hname, hlower⟩ := exists_cons_of_isWord (Register.isWord_name _ h.1)
  refine ⟨char, more ++ factorText term.factor, ?_, hlower⟩
  rw [chars_eq, hname, List.cons_append]

def joined (terms : List Term) (tail : List Char) : List Char :=
  terms.foldr (fun term chars => '+' :: (term.chars ++ chars)) tail

def IsTail (tail : List Char) : Prop :=
  tail = [] ∨ ∃ sign more, isSign sign = true ∧ tail = sign :: '0' :: more

theorem isSign_head?_joined {tail : List Char} (htail : IsTail tail) (terms : List Term) :
    ∀ char ∈ (joined terms tail).head?, isSign char = true := by
  cases terms with
  | nil =>
    rcases htail with rfl | ⟨sign, more, hsign, rfl⟩
    · simp [joined]
    · rintro _ ⟨⟩
      exact hsign
  | cons term terms =>
    rintro _ ⟨⟩
    rfl

/-- A number is no term: it does not begin with a letter. -/
theorem tail_ne_joined {tail behind : List Char} (htail : IsTail tail) (h : term.IsNamed)
    (terms : List Term) : tail ≠ joined (term :: terms) behind := by
  intro heq
  obtain ⟨char, more, hchars, hlower⟩ := exists_chars_eq_cons h
  have hjoined : joined (term :: terms) behind = '+' :: char :: (more ++ joined terms behind) := by
    rw [joined, List.foldr_cons, hchars]
    rfl
  rw [hjoined] at heq
  rcases htail with rfl | ⟨sign, digits, -, rfl⟩
  · contradiction
  · obtain rfl : '0' = char := List.head_eq_of_cons_eq (List.tail_eq_of_cons_eq heq)
    contradiction

theorem joined_inj {terms others : List Term} {tail behind : List Char}
    (hterms : ∀ term ∈ terms, term.IsNamed) (hothers : ∀ term ∈ others, term.IsNamed)
    (htail : IsTail tail) (hbehind : IsTail behind) (h : joined terms tail = joined others behind) :
    terms = others ∧ tail = behind := by
  induction terms generalizing others with
  | nil =>
    cases others with
    | nil => exact ⟨rfl, h⟩
    | cons other others => exact absurd h (tail_ne_joined htail (hothers other List.mem_cons_self) others)
  | cons term terms ih =>
    cases others with
    | nil => exact absurd h.symm (tail_ne_joined hbehind (hterms term List.mem_cons_self) terms)
    | cons other others =>
      have hterm := hterms term List.mem_cons_self
      have hother := hothers other List.mem_cons_self
      obtain ⟨hchars, hrest⟩ := append_inj_of_stops isSign (isSign_chars hterm) (isSign_chars hother)
        (isSign_head?_joined htail terms) (isSign_head?_joined hbehind others)
        (List.tail_eq_of_cons_eq h)
      obtain rfl := chars_inj hterm hother hchars
      obtain ⟨rfl, hsame⟩ := ih (fun term hmem => hterms term (List.mem_cons_of_mem _ hmem))
        (fun term hmem => hothers term (List.mem_cons_of_mem _ hmem)) hrest
      exact ⟨rfl, hsame⟩

def total (values : Register → Int) (terms : List Term) : Int :=
  terms.foldr (fun term sum => values term.register * term.factor + sum) 0

end Term

namespace Displacement

def chars (displacement : Displacement) : List Char :=
  if displacement.isPresent then
    (if displacement.value < 0 then '-' else '+') :: (Hex.unsigned displacement.value.natAbs).toList
  else []

theorem isTail_chars (displacement : Displacement) : Term.IsTail displacement.chars := by
  unfold chars
  split
  · refine .inr ⟨_, _, ?_, by rw [Hex.toList_unsigned]⟩
    split <;> rfl
  · exact .inl rfl

theorem value_eq_of_chars {displacement other : Displacement} (h : displacement.chars = other.chars) :
    displacement.value = other.value := by
  have habsent : ∀ displacement : Displacement, displacement.isPresent = false → displacement.value = 0 := by
    rintro (_ | _) hnone
    · rfl
    all_goals contradiction
  unfold chars at h
  cases hfirst : displacement.isPresent <;> cases hsecond : other.isPresent <;>
    simp only [hfirst, hsecond, if_true, Bool.false_eq_true, if_false] at h
  · rw [habsent _ hfirst, habsent _ hsecond]
  · contradiction
  · contradiction
  · obtain ⟨hsign, hdigits⟩ := List.cons.inj h
    have habs := Hex.unsigned_injective (String.toList_injective hdigits)
    split at hsign <;> split at hsign <;> first | contradiction | omega

end Displacement

namespace MemoryAddress

variable {address other : MemoryAddress} {config setting : Config} {prefixes state : PrefixState}

def terms (address : MemoryAddress) : List Term :=
  (address.base.map (Term.mk · 1)).toList ++ (address.index.map (Term.mk · address.scale)).toList

theorem effective_eq_total (address : MemoryAddress) (values : Register → Int) :
    address.effective values =
      (Term.total values address.terms + address.displacement.value) % address.addressWidth.modulus := by
  unfold effective terms
  cases address.base <;> cases address.index <;> simp [Term.total]

theorem WellFormed.register_mem_named (h : address.WellFormed config prefixes) {register : Register}
    (hregister : register ∈ address.registers) : register ∈ Register.named := by
  have hwidth := h.width register hregister
  cases register with
  | general number width => exact Register.general_mem_named (h.number number width hregister) width
  | instructionPointer width =>
    obtain ⟨-, -, hdword, -⟩ := h.pointer width hregister
    obtain rfl : width = .dword := hwidth.trans hdword
    exact List.mem_cons_self

theorem WellFormed.terms (h : address.WellFormed config prefixes) :
    ∀ term ∈ address.terms, term.IsNamed ∧ term.register.width = address.addressWidth := by
  intro term hterm
  have hregister : ∀ register ∈ address.registers,
      register ∈ Register.named ∧ register.width = address.addressWidth :=
    fun register hmem => ⟨h.register_mem_named hmem, h.width register hmem⟩
  rcases List.mem_append.mp hterm with hbase | hindex
  · obtain ⟨register, hsome, rfl⟩ := Option.map_eq_some_iff.mp (Option.mem_toList.mp hbase)
    obtain ⟨hnamed, hwidth⟩ := hregister register (mem_registers.mpr (.inl hsome))
    exact ⟨⟨hnamed, List.mem_cons_self⟩, hwidth⟩
  · obtain ⟨register, hsome, rfl⟩ := Option.map_eq_some_iff.mp (Option.mem_toList.mp hindex)
    obtain ⟨hnamed, hwidth⟩ := hregister register (mem_registers.mpr (.inr hsome))
    exact ⟨⟨hnamed, by simpa [Term.factors] using h.scale⟩, hwidth⟩

def inner (address : MemoryAddress) : List Char :=
  address.registersText.toList ++ address.displacementText.toList

theorem toList_displacementText (h : (address.base.isNone && address.index.isNone) = false) :
    address.displacementText.toList = address.displacement.chars := by
  unfold displacementText Displacement.chars
  cases address.displacement.isPresent with
  | false => rfl
  | true =>
    simp only [h, Bool.not_true, Bool.false_eq_true, if_false, if_true]
    by_cases hnegative : address.displacement.value < 0
    · rw [if_pos hnegative, Hex.toList_signed, if_pos hnegative, if_pos hnegative]
      rfl
    · rw [if_neg hnegative, String.toList_append, Hex.toList_signed, if_neg hnegative, if_neg hnegative]
      rfl

/-- Each register stands behind a plus sign, once one is put in front. -/
theorem cons_inner (h : address.terms ≠ []) :
    '+' :: address.inner = Term.joined address.terms address.displacement.chars := by
  have hplain : ∀ register : Register, register.name = indexText register 1 := fun _ => rfl
  unfold inner registersText terms at *
  cases hbase : address.base <;> cases hindex : address.index
  case none.none => simp [hbase, hindex] at h
  all_goals
    rw [toList_displacementText (by simp [hbase, hindex])]
    simp [Term.joined, Term.chars, hplain, String.toList_append]

theorem inner_of_terms_eq_nil (hterms : address.terms = []) (h : address.WellFormed config prefixes) :
    address.inner =
      (Hex.unsigned (address.displacement.value % address.addressWidth.modulus).toNat).toList := by
  have hbase : address.base = none := by simpa [terms] using (List.append_eq_nil_iff.mp hterms).1
  have hindex : address.index = none := by simpa [terms] using (List.append_eq_nil_iff.mp hterms).2
  have hpresent : address.displacement.isPresent = true := by
    rcases h.baseless hbase with ⟨-, value, hvalue⟩ | ⟨-, value, hvalue⟩ <;> rw [hvalue] <;> rfl
  unfold inner registersText displacementText
  simp only [hbase, hindex, hpresent]
  rfl

theorem effective_of_inner (h : address.WellFormed config prefixes) (hother : other.WellFormed setting state)
    (heq : address.inner = other.inner) (values : Register → Int) :
    address.effective values = other.effective values := by
  -- A number and a register begin differently.
  have hlone : ∀ {lone joined : MemoryAddress} {config setting : Config} {prefixes state : PrefixState},
      lone.WellFormed config prefixes → joined.WellFormed setting state → lone.inner = joined.inner →
      lone.terms = [] → joined.terms = [] := by
    intro lone joined config setting prefixes state hlone hjoined heq hnil
    by_contra hne
    obtain ⟨term, terms, hterms⟩ := List.exists_cons_of_ne_nil hne
    have hnamed := (hjoined.terms term (by simp [hterms])).1
    have hchars := cons_inner hne
    rw [hterms, ← heq, inner_of_terms_eq_nil hnil hlone, Hex.toList_unsigned] at hchars
    exact Term.tail_ne_joined (.inr ⟨'+', _, rfl, rfl⟩) hnamed terms hchars
  rw [effective_eq_total, effective_eq_total]
  by_cases hnil : address.terms = []
  · have hnone := hlone h hother heq hnil
    rw [inner_of_terms_eq_nil hnil h, inner_of_terms_eq_nil hnone hother] at heq
    have hvalue := Hex.unsigned_injective (String.toList_injective heq)
    have hpos := address.addressWidth.modulus_pos
    have hotherPos := other.addressWidth.modulus_pos
    rw [hnil, hnone]
    simp only [Term.total, List.foldr_nil, Int.zero_add]
    have hfirst := Int.emod_nonneg address.displacement.value (b := address.addressWidth.modulus) (by omega)
    have hsecond := Int.emod_nonneg other.displacement.value (b := other.addressWidth.modulus) (by omega)
    omega
  · have hne : other.terms ≠ [] := fun hnone => hnil (hlone hother h heq.symm hnone)
    have hjoined := congrArg ('+' :: ·) heq
    simp only [cons_inner hnil, cons_inner hne] at hjoined
    obtain ⟨hterms, hchars⟩ := Term.joined_inj (fun term hmem => (h.terms term hmem).1)
      (fun term hmem => (hother.terms term hmem).1) (Displacement.isTail_chars _)
      (Displacement.isTail_chars _) hjoined
    -- The registers are as wide as the address.
    obtain ⟨term, hmem⟩ := List.exists_mem_of_ne_nil _ hnil
    have hwidth : address.addressWidth = other.addressWidth :=
      (h.terms term hmem).2.symm.trans (hother.terms term (hterms ▸ hmem)).2
    rw [hterms, Displacement.value_eq_of_chars hchars, hwidth]

theorem toList_text (address : MemoryAddress) : address.text.toList =
    (segmentText address.segment).toList ++ '[' :: (address.inner ++ [']']) := by
  unfold text inner
  simp only [String.toList_append, List.append_assoc]
  rfl

/-- Two addresses of one text are in the same segment and lead to the same place. -/
theorem effective_of_text (h : address.WellFormed config prefixes) (hother : other.WellFormed setting state)
    (heq : address.text = other.text) :
    address.segment = other.segment ∧ ∀ values, address.effective values = other.effective values := by
  have hchars := congrArg String.toList heq
  rw [toList_text, toList_text] at hchars
  obtain ⟨hsegment, hrest⟩ := append_inj_of_stops (decide <| · = '[') (segmentText_ne _)
    (segmentText_ne _) (by simp) (by simp) hchars
  refine ⟨segmentText_injective (String.toList_injective hsegment), effective_of_inner h hother ?_⟩
  exact List.append_cancel_right (List.tail_eq_of_cons_eq hrest)

end MemoryAddress

namespace Operand

variable {first second : Operand} {context : Context} {config setting : Config}
  {prefixes state : PrefixState} {opcode : UInt8} {modeByte : Option ModeByte}

def IsNamed (operand : Operand) : Prop := ∀ source, operand = .register source → source ∈ Register.named

theorem isNamed_ofNumber (number : Nat) (width : Width) :
    (Operand.register (.ofNumber number width)).IsNamed := by
  rintro _ ⟨⟩
  exact Register.general_mem_named (Nat.mod_lt _ (by decide)) width

theorem isNamed_immediate (constant : Immediate) : (Operand.immediate constant).IsNamed :=
  fun _ h => nomatch h

theorem isNamed_memory (address : MemoryAddress) (width : Width) :
    (Operand.memory address width).IsNamed := fun _ h => nomatch h

theorem ensures_readRm_isNamed (byte : ModeByte) (form : OperandForm) (width : Width) :
    Ensures (readRm context byte form width) IsNamed := by
  unfold readRm
  split
  · split
    · exact ensures_invalid _
    · exact ensures_pure (isNamed_ofNumber _ width)
  · split
    · exact ensures_invalid _
    · exact ensures_bind (ensures_trivial _) fun _ _ => ensures_pure (isNamed_memory _ width)

theorem ensures_readPlain_isNamed {spec : OperandSpec} (hplain : spec.mode.usesRm = false) :
    Ensures (readPlain context opcode modeByte spec) IsNamed := by
  obtain ⟨mode, type⟩ := spec
  cases mode with
  | rm form => contradiction
  | reg => exact ensures_bind (ensures_trivial _) fun _ _ => ensures_pure (isNamed_ofNumber _ _)
  | opcodeRegister | fixedRegister => exact ensures_pure (isNamed_ofNumber _ _)
  | one => exact ensures_pure (isNamed_immediate _)
  | immediate | relative =>
    exact ensures_bind (ensures_trivial _) fun _ _ => ensures_pure (isNamed_immediate _)
  | offset =>
    refine ensures_bind (ensures_trivial _) fun displacement _ => ?_
    split
    · exact ensures_pure (isNamed_memory _ _)
    · exact ensures_invalid _

theorem toList_text_memory (address : MemoryAddress) (width : Width) :
    (memory address width).text.toList =
      width.name.toList ++ ' ' :: ('p' :: 't' :: 'r' :: ' ' :: address.text.toList) := by
  unfold text
  simp only [String.toList_append, List.append_assoc]
  rfl

theorem toList_ne_signed {char : Char} (h : char.isLower = true) (more : List Char) (value : Int) :
    char :: more ≠ (Hex.signed value).toList := by
  intro heq
  rw [Hex.toList_signed, Hex.toList_unsigned] at heq
  split at heq
  all_goals
    obtain rfl := List.head_eq_of_cons_eq heq
    contradiction

theorem text_register_ne_immediate {source : Register} (h : source ∈ Register.named)
    (constant : Immediate) : (register source).text ≠ (immediate constant).text := by
  intro heq
  obtain ⟨char, more, hname, hlower⟩ := exists_cons_of_isWord (Register.isWord_name source h)
  have hchars := congrArg String.toList heq
  rw [show (register source).text.toList = char :: more from hname] at hchars
  exact toList_ne_signed hlower more constant.value hchars

theorem text_memory_ne_immediate (address : MemoryAddress) (width : Width) (constant : Immediate) :
    (memory address width).text ≠ (immediate constant).text := by
  intro heq
  obtain ⟨char, more, hname, hlower⟩ := exists_cons_of_isWord width.isWord_name
  have hchars := congrArg String.toList heq
  rw [toList_text_memory, hname] at hchars
  exact toList_ne_signed hlower _ constant.value hchars

theorem text_register_ne_memory {source : Register} (h : source ∈ Register.named)
    (address : MemoryAddress) (width : Width) :
    (register source).text ≠ (memory address width).text := by
  intro heq
  have hblank : ' ' ∈ (memory address width).text.toList := by simp [toList_text_memory]
  rw [← heq] at hblank
  have hlower := isLower_of_isWord (Register.isWord_name source h) ' ' hblank
  contradiction

theorem agrees_of_text (hfirst : first.IsNamed) (hsecond : second.IsNamed)
    (hwell : first.WellFormed config prefixes) (hother : second.WellFormed setting state)
    (h : first.text = second.text) : first.Agrees second := by
  cases first with
  | register source =>
    have hsource := hfirst source rfl
    cases second with
    | register other =>
      obtain rfl := Register.name_injOn source hsource other (hsecond other rfl) h
      exact .register source
    | immediate constant => exact absurd h (text_register_ne_immediate hsource constant)
    | memory address width => exact absurd h (text_register_ne_memory hsource address width)
  | immediate constant =>
    cases second with
    | register other => exact absurd h.symm (text_register_ne_immediate (hsecond other rfl) constant)
    | immediate other => exact .immediate (Hex.signed_injective h)
    | memory address width => exact absurd h.symm (text_memory_ne_immediate address width constant)
  | memory address width =>
    cases second with
    | register other => exact absurd h.symm (text_register_ne_memory (hsecond other rfl) address width)
    | immediate constant => exact absurd h (text_memory_ne_immediate address width constant)
    | memory other wide =>
      have hblank : ∀ width : Width, ∀ char ∈ width.name.toList, decide (char = ' ') = false :=
        fun width => ne_of_isWord width.isWord_name rfl
      have hchars := congrArg String.toList h
      rw [toList_text_memory, toList_text_memory] at hchars
      obtain ⟨hname, hrest⟩ := append_inj_of_stops (decide <| · = ' ') (hblank width) (hblank wide)
        (by simp) (by simp) hchars
      obtain rfl := Width.name_injective (String.toList_injective hname)
      have htext : address.text = other.text := String.toList_injective (by simpa using hrest)
      obtain ⟨hsegment, heffective⟩ :=
        MemoryAddress.effective_of_text (hwell _ _ rfl) (hother _ _ rfl) htext
      exact .memory hsegment heffective

end Operand

namespace Decoder

variable {decoder other : Decoder}

theorem isNamed_of_decode {image : List UInt8} {start : Nat} {base : Option UInt64}
    {instruction : Instruction} (h : decoder.decode image start base = .ok instruction) :
    ∀ operand ∈ instruction.operands,
      operand.IsNamed ∧ operand.WellFormed decoder.config instruction.prefixes := by
  obtain ⟨reading, hread, -, rfl⟩ := decode_eq_ok_iff.mp h
  obtain ⟨_, _, -, hall, -⟩ := exists_locates_of_readCode hread
  intro operand hmem
  exact ⟨Operand.forall_mem_of_readAll Operand.ensures_readRm_isNamed
    (fun _ => Operand.ensures_readPlain_isNamed) hall operand hmem,
    Operand.wellFormed_of_readAll hall operand hmem⟩

/-- Operands of one text agree, whatever instructions they are taken from: those of other code, read by other
tables under other configurations. -/
theorem agrees_of_decode {image code : List UInt8} {start place : Nat} {base origin : Option UInt64}
    {found again : Instruction} {first second : Operand}
    (hfound : decoder.decode image start base = .ok found)
    (hagain : other.decode code place origin = .ok again) (hfirst : first ∈ found.operands)
    (hsecond : second ∈ again.operands) (htext : first.text = second.text) : first.Agrees second := by
  obtain ⟨hname, hwell⟩ := isNamed_of_decode hfound first hfirst
  obtain ⟨hother, hplace⟩ := isNamed_of_decode hagain second hsecond
  exact Operand.agrees_of_text hname hother hwell hplace htext

theorem agrees_of_decode_add : ∃ (add wide : Instruction) (first second : Operand),
    small.decode [0x81, 0x43, 0xFC, 1, 0, 0, 0] 0 none = .ok add ∧
      (Decoder.mk small.table { codeSize := .bits16 }).decode
        [0x67, 0x66, 0x81, 0x83, 0xFC, 0xFF, 0xFF, 0xFF, 1, 0, 0, 0] 0 none = .ok wide ∧
      first ∈ add.operands ∧ second ∈ wide.operands ∧ first ≠ second ∧
      first.text = "dword ptr [ebx-0x4]" ∧ second.text = "dword ptr [ebx-0x4]" ∧
      first.Agrees second := by
  let address : MemoryAddress := {
    base := some (.general 3 .dword)
    index := none
    scale := 1
    displacement := .disp8 (-4)
    segment := none
    addressWidth := .dword }
  let add : Instruction := {
    mnemonic := "add"
    shape := .operation
    operands := [.memory address .dword, .immediate ⟨1, .dword, false⟩]
    encoding := [0x81, 0x43, 0xFC, 1, 0, 0, 0]
    offset := 0
    address := none
    prefixes := {} }
  let wide : Instruction := { add with
    operands := [.memory { address with displacement := .disp32 (-4) } .dword, .immediate ⟨1, .dword, false⟩]
    encoding := [0x67, 0x66, 0x81, 0x83, 0xFC, 0xFF, 0xFF, 0xFF, 1, 0, 0, 0]
    prefixes := { operandSize := true, addressSize := true } }
  have hadd : small.decode [0x81, 0x43, 0xFC, 1, 0, 0, 0] 0 none = .ok add := by decide +kernel
  have hwide : (Decoder.mk small.table { codeSize := .bits16 }).decode
      [0x67, 0x66, 0x81, 0x83, 0xFC, 0xFF, 0xFF, 0xFF, 1, 0, 0, 0] 0 none = .ok wide := by decide +kernel
  have hfirst : (Operand.memory address .dword).text = "dword ptr [ebx-0x4]" := by decide +kernel
  have hsecond : (Operand.memory { address with displacement := .disp32 (-4) } .dword).text =
      "dword ptr [ebx-0x4]" := by decide +kernel
  exact ⟨add, wide, _, _, hadd, hwide, List.mem_cons_self, List.mem_cons_self, by decide, hfirst, hsecond,
    agrees_of_decode hadd hwide List.mem_cons_self List.mem_cons_self (hfirst.trans hsecond.symm)⟩

end Decoder
end IA32
