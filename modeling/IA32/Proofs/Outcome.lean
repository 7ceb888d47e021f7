import IA32.Proofs.OperandBytes
import IA32.Proofs.Reading

set_option autoImplicit false

namespace IA32

theorem OpcodeKey.cases_of_read {code rest : List UInt8} {key : OpcodeKey}
    (h : OpcodeKey.read.run code = .ok (key, rest)) :
    (∃ opcode, opcode ≠ escapeByte ∧ key = .primary opcode ∧ code = opcode :: rest) ∨
      ∃ opcode, key = .secondary opcode ∧ code = escapeByte :: opcode :: rest := by
  unfold OpcodeKey.read at h
  rw [Reader.run_bind] at h
  rcases code with _ | ⟨first, code⟩
  · contradiction
  · change (if first = escapeByte then _ else _ : Reader OpcodeKey).run code = _ at h
    split at h
    · next hescape =>
      rcases code with _ | ⟨second, code⟩
      · contradiction
      · cases h
        exact .inr ⟨second, rfl, hescape ▸ rfl⟩
    · next hescape =>
      cases h
      exact .inl ⟨first, hescape, rfl, rfl⟩

namespace Table

def Reaches (table : Table) (code : List UInt8) (modeByte : Option ModeByte)
    (descriptor : Descriptor) (tail : List UInt8) : Prop :=
  ∃ (bytes : List UInt8) (map : OpcodeMap) (opcode : UInt8) (byte : Option UInt8),
    Spells bytes map opcode ∧ byte.map ModeByte.ofByte = modeByte ∧
    table.Selects map opcode modeByte descriptor ∧ code = bytes ++ (byte.toList ++ tail)

/-- What a table has for an opcode: the instruction of the whole opcode, or the member of the group that the
mode byte names. -/
inductive Grants (table : Table) : Selection → Prop where
  | plain {map : OpcodeMap} {opcode : UInt8} {descriptor : Descriptor} :
      table.lookup ⟨map, opcode, none⟩ = some descriptor → descriptor.needsModeByte = false →
      Grants table ⟨⟨map, opcode, none⟩, descriptor, none⟩
  | withModeByte {map : OpcodeMap} {opcode : UInt8} {descriptor : Descriptor} {byte : ModeByte} :
      table.lookup ⟨map, opcode, none⟩ = some descriptor → descriptor.needsModeByte = true →
      Grants table ⟨⟨map, opcode, none⟩, descriptor, some byte⟩
  | member {map : OpcodeMap} {opcode : UInt8} {descriptor : Descriptor} {byte : ModeByte} :
      table.lookup ⟨map, opcode, some byte.reg.val⟩ = some descriptor →
      Grants table ⟨⟨map, opcode, some byte.reg.val⟩, descriptor, some byte⟩

def Locates (table : Table) (code : List UInt8) (selection : Selection) (tail : List UInt8) : Prop :=
  ∃ (bytes : List UInt8) (byte : Option UInt8),
    Spells bytes selection.key.map selection.key.opcode ∧ table.Grants selection ∧
      byte.map ModeByte.ofByte = selection.modeByte ∧ code = bytes ++ (byte.toList ++ tail)

/-- The code names a key that is not registered: an opcode without any registration, or a place that is
free in a group. -/
inductive Unsupported (table : Table) : List UInt8 → OpcodeKey → Prop where
  | opcode {bytes rest : List UInt8} {map : OpcodeMap} {opcode : UInt8} :
      Spells bytes map opcode → (∀ extension, table.lookup ⟨map, opcode, extension⟩ = none) →
      Unsupported table (bytes ++ rest) ⟨map, opcode, none⟩
  | member {bytes rest : List UInt8} {map : OpcodeMap} {opcode byte : UInt8} {other : Nat}
      {descriptor : Descriptor} :
      Spells bytes map opcode → table.lookup ⟨map, opcode, some other⟩ = some descriptor →
      table.lookup ⟨map, opcode, some (ModeByte.ofByte byte).reg.val⟩ = none →
      Unsupported table (bytes ++ byte :: rest) ⟨map, opcode, some (ModeByte.ofByte byte).reg.val⟩

def TakesModeByte (table : Table) (map : OpcodeMap) (opcode : UInt8) : Prop :=
  (∃ descriptor, table.lookup ⟨map, opcode, none⟩ = some descriptor ∧
    descriptor.needsModeByte = true) ∨
  ∃ extension descriptor, table.lookup ⟨map, opcode, some extension⟩ = some descriptor

/-- The code ends in front of a byte that the instruction needs. -/
inductive Lacks (table : Table) (sizes : Sizes) : List UInt8 → Prop where
  | opcode : Lacks table sizes []
  | secondOpcode : Lacks table sizes [escapeByte]
  | modeByte {bytes : List UInt8} {map : OpcodeMap} {opcode : UInt8} :
      Spells bytes map opcode → table.TakesModeByte map opcode → Lacks table sizes bytes
  | operands {code tail : List UInt8} {modeByte : Option ModeByte} {descriptor : Descriptor} :
      table.Reaches code modeByte descriptor tail → Fits descriptor.operands modeByte →
      tail.length < sizes.tailLength descriptor.operands modeByte tail.head? →
      Lacks table sizes code

variable {table : Table} {context : Context} {map : OpcodeMap} {opcode : UInt8}
  {descriptor : Descriptor} {modeByte : Option ModeByte} {selection : Selection}
  {bytes code tail : List UInt8}

theorem dispatch_eq_none (hsound : table.Sound)
    (h : ∀ extension, table.lookup ⟨map, opcode, extension⟩ = none) :
    table.dispatch map opcode = none := by
  cases hslot : table.dispatch map opcode with
  | none => rfl
  | some entry =>
    have hlookup : ∀ extension, entry.lookup extension = none := by
      intro extension
      have := h extension
      rwa [lookup, hslot] at this
    cases entry with
    | instruction held =>
      have := hlookup none
      contradiction
    | group members =>
      obtain ⟨extension, held, hmember⟩ := hsound.group map opcode members hslot
      have hnone : members.member extension = none := hlookup (some extension)
      rw [hnone] at hmember
      contradiction

theorem readKey_run (h : Spells bytes map opcode) (rest : List UInt8) :
    OpcodeKey.read.run (bytes ++ rest) = .ok (⟨map, opcode, none⟩, rest) := by
  cases h with
  | primary hbyte hescape =>
    unfold OpcodeKey.read
    rw [Reader.run_bind]
    change (if opcode = escapeByte then _ else (pure (OpcodeKey.primary opcode) : Reader OpcodeKey)).run
      rest = _
    rw [if_neg hescape]
    rfl
  | secondary => rfl

theorem readBody_run_eq (table : Table) (context : Context) (code : List UInt8) :
    (table.readBody context).run code =
      OpcodeKey.read.run code >>= fun read =>
        (table.select read.1).run read.2 >>= fun selected =>
          (do return Body.mk selected.1 (← Operand.readAll context selected.1.key.opcode
            selected.1.modeByte selected.1.descriptor.operands) : Reader Body).run selected.2 := by
  unfold readBody
  simp only [Reader.run_bind]

theorem readBody_run (h : Spells bytes map opcode) (rest : List UInt8) :
    (table.readBody context).run (bytes ++ rest) =
      (table.select ⟨map, opcode, none⟩).run rest >>= fun read =>
        (do return Body.mk read.1 (← Operand.readAll context read.1.key.opcode read.1.modeByte
          read.1.descriptor.operands) : Reader Body).run read.2 := by
  rw [readBody_run_eq, readKey_run h]
  rfl

theorem select_group_run {group : Group} (h : table.dispatch map opcode = some (.group group))
    (byte : UInt8) (rest : List UInt8) :
    (table.select ⟨map, opcode, none⟩).run (byte :: rest) =
      match group.member (ModeByte.ofByte byte).reg with
      | none => .error (.fault (.unsupportedOpcode ⟨map, opcode, some (ModeByte.ofByte byte).reg.val⟩))
      | some descriptor => .ok (⟨⟨map, opcode, some (ModeByte.ofByte byte).reg.val⟩, descriptor,
          some (ModeByte.ofByte byte)⟩, rest) := by
  have hread : ModeByte.read.run (byte :: rest) = .ok (ModeByte.ofByte byte, rest) := rfl
  unfold select
  simp only [h]
  rw [Reader.run_bind, hread]
  simp only [bind, Except.bind]
  cases group.member (ModeByte.ofByte byte).reg with
  | none => rfl
  | some descriptor => rfl

theorem Grants.selects (h : table.Grants selection) :
    table.Selects selection.key.map selection.key.opcode selection.modeByte selection.descriptor := by
  cases h with
  | plain hlookup hneeds => exact .plain hlookup hneeds
  | withModeByte hlookup hneeds => exact .withModeByte hlookup hneeds
  | member hlookup => exact .member hlookup

theorem Grants.lookup_eq (h : table.Grants selection) :
    table.lookup selection.key = some selection.descriptor := by
  cases h with
  | plain hlookup | withModeByte hlookup | member hlookup => exact hlookup

theorem Selects.exists_grants (h : table.Selects map opcode modeByte descriptor) :
    ∃ extension, table.Grants ⟨⟨map, opcode, extension⟩, descriptor, modeByte⟩ := by
  cases h with
  | plain hlookup hneeds => exact ⟨none, .plain hlookup hneeds⟩
  | withModeByte hlookup hneeds => exact ⟨none, .withModeByte hlookup hneeds⟩
  | member hlookup => exact ⟨_, .member hlookup⟩

theorem Locates.reaches (h : table.Locates code selection tail) :
    table.Reaches code selection.modeByte selection.descriptor tail := by
  obtain ⟨bytes, byte, hspells, hgrants, hbyte, hcode⟩ := h
  exact ⟨bytes, _, _, byte, hspells, hbyte, hgrants.selects, hcode⟩

theorem Reaches.exists_locates (h : table.Reaches code modeByte descriptor tail) :
    ∃ key, table.Locates code ⟨key, descriptor, modeByte⟩ tail := by
  obtain ⟨bytes, map, opcode, byte, hspells, hbyte, hselects, hcode⟩ := h
  obtain ⟨extension, hgrants⟩ := hselects.exists_grants
  exact ⟨⟨map, opcode, extension⟩, bytes, byte, hspells, hgrants, hbyte, hcode⟩

theorem Grants.select_run (h : table.Grants selection) {byte : Option UInt8}
    (hbyte : byte.map ModeByte.ofByte = selection.modeByte) (tail : List UInt8) :
    (table.select ⟨selection.key.map, selection.key.opcode, none⟩).run (byte.toList ++ tail) =
      .ok (selection, tail) := by
  cases h with
  | plain hlookup hneeds =>
    obtain rfl := Option.map_eq_none_iff.mp hbyte
    unfold select
    simp only [dispatch_of_lookup_none hlookup, hneeds]
    rfl
  | withModeByte hlookup hneeds =>
    obtain ⟨raw, rfl, rfl⟩ := Option.map_eq_some_iff.mp hbyte
    unfold select
    simp only [dispatch_of_lookup_none hlookup, hneeds]
    rfl
  | member hlookup =>
    obtain ⟨raw, rfl, rfl⟩ := Option.map_eq_some_iff.mp hbyte
    obtain ⟨group, hgroup, hmember⟩ := dispatch_of_lookup_some hlookup
    change (table.select _).run (raw :: tail) = _
    rw [select_group_run hgroup, hmember]

theorem select_run_nil (h : table.TakesModeByte map opcode) :
    (table.select ⟨map, opcode, none⟩).run [] = .error .endOfCode := by
  unfold select
  rcases h with ⟨descriptor, hlookup, hneeds⟩ | ⟨extension, descriptor, hlookup⟩
  · simp only [dispatch_of_lookup_none hlookup, hneeds]
    rfl
  · obtain ⟨group, hgroup, -⟩ := dispatch_of_lookup_some hlookup
    simp only [hgroup]
    rfl

theorem Selects.isSome_of_usesModeByte (h : table.Selects map opcode modeByte descriptor) :
    ∀ spec ∈ descriptor.operands, spec.mode.usesModeByte = true → modeByte.isSome = true := by
  intro spec hspec huses
  cases h with
  | plain hlookup hneeds =>
    have := List.any_eq_false.mp hneeds spec hspec
    contradiction
  | withModeByte | member => rfl

theorem Selects.defect (h : table.Selects map opcode modeByte descriptor) (hsound : table.Sound) :
    descriptor.defect? = none := by
  obtain ⟨extension, hgrants⟩ := h.exists_grants
  exact hsound.defect _ _ hgrants.lookup_eq

end Table

theorem Descriptor.countP_usesRm_le {descriptor : Descriptor} (h : descriptor.defect? = none) :
    descriptor.operands.countP (·.mode.usesRm) ≤ 1 := by
  unfold defect? at h
  split at h
  · contradiction
  split at h
  · contradiction
  split at h
  · contradiction
  · omega

namespace Table

variable {table : Table} {context : Context} {modeByte : Option ModeByte} {descriptor : Descriptor}
  {code tail : List UInt8}

theorem readBody_run_of_reaches (h : table.Reaches code modeByte descriptor tail)
    (context : Context) : ∃ key : OpcodeKey,
      (table.readBody context).run code =
        (do return Body.mk ⟨key, descriptor, modeByte⟩ (← Operand.readAll context key.opcode modeByte
          descriptor.operands) : Reader Body).run tail := by
  obtain ⟨key, bytes, byte, hspells, hgrants, hbyte, rfl⟩ := h.exists_locates
  refine ⟨key, ?_⟩
  rw [readBody_run hspells, hgrants.select_run hbyte]
  rfl

theorem reaches_or (hsound : table.Sound) (sizes : Sizes)
    (hcode : ∀ byte rest, code = byte :: rest → Prefix.isByte byte = false) :
    (∃ modeByte descriptor tail, table.Reaches code modeByte descriptor tail) ∨
      (∃ key, table.Unsupported code key) ∨ table.Lacks sizes code := by
  -- A first byte is no prefix, so only an escape byte with nothing behind it spells no opcode.
  have hspelled : code = [] ∨ code = [escapeByte] ∨
      ∃ bytes map opcode rest, Spells bytes map opcode ∧ code = bytes ++ rest := by
    rcases code with _ | ⟨first, _ | ⟨second, rest⟩⟩
    · exact .inl rfl
    · by_cases hescape : first = escapeByte
      · exact .inr (.inl (by rw [hescape]))
      · exact .inr (.inr ⟨[first], _, _, [], .primary (hcode _ _ rfl) hescape, rfl⟩)
    · by_cases hescape : first = escapeByte
      · subst hescape
        exact .inr (.inr ⟨[escapeByte, second], _, _, rest, .secondary, rfl⟩)
      · exact .inr (.inr ⟨[first], _, _, second :: rest, .primary (hcode _ _ rfl) hescape, rfl⟩)
  rcases hspelled with rfl | rfl | ⟨bytes, map, opcode, rest, hspells, rfl⟩
  · exact .inr (.inr .opcode)
  · exact .inr (.inr .secondOpcode)
  cases hslot : table.dispatch map opcode with
  | none =>
    refine .inr (.inl ⟨_, .opcode hspells fun extension => ?_⟩)
    rw [lookup, hslot]
    rfl
  | some entry =>
    cases entry with
    | instruction descriptor =>
      have hlookup := lookup_of_dispatch_instruction hslot
      cases hneeds : descriptor.needsModeByte with
      | false =>
        exact .inl ⟨none, descriptor, rest, bytes, map, opcode, none, hspells, rfl,
          .plain hlookup hneeds, rfl⟩
      | true =>
        cases rest with
        | nil =>
          rw [List.append_nil]
          exact .inr (.inr (.modeByte hspells (.inl ⟨descriptor, hlookup, hneeds⟩)))
        | cons byte rest =>
          exact .inl ⟨_, descriptor, rest, bytes, map, opcode, some byte, hspells, rfl,
            .withModeByte hlookup hneeds, rfl⟩
    | group group =>
      have hlookup := lookup_of_dispatch_group hslot
      obtain ⟨extension, descriptor, hmember⟩ := hsound.group map opcode group hslot
      rw [← hlookup] at hmember
      cases rest with
      | nil =>
        rw [List.append_nil]
        exact .inr (.inr (.modeByte hspells (.inr ⟨extension, descriptor, hmember⟩)))
      | cons byte rest =>
        cases hfound : table.lookup ⟨map, opcode, some (ModeByte.ofByte byte).reg.val⟩ with
        | none => exact .inr (.inl ⟨_, .member hspells hmember hfound⟩)
        | some found =>
          exact .inl ⟨_, found, rest, bytes, map, opcode, some byte, hspells, rfl,
            .member hfound, rfl⟩

/-- Whatever the code is, it holds an instruction or there is one thing wrong with it. -/
theorem outcome_cases (hsound : table.Sound) (sizes : Sizes)
    (hcode : ∀ byte rest, code = byte :: rest → Prefix.isByte byte = false) :
    (∃ modeByte descriptor tail, table.Reaches code modeByte descriptor tail ∧
        Fits descriptor.operands modeByte ∧
        sizes.tailLength descriptor.operands modeByte tail.head? ≤ tail.length) ∨
      (∃ byte descriptor tail fault, table.Reaches code (some byte) descriptor tail ∧
        Misfit descriptor.operands byte fault) ∨
      (∃ key, table.Unsupported code key) ∨ table.Lacks sizes code := by
  rcases reaches_or hsound sizes hcode with
    ⟨modeByte, descriptor, tail, hreach⟩ | hunsupported | hlacks
  · by_cases hfits : Fits descriptor.operands modeByte
    · by_cases hshort : tail.length < sizes.tailLength descriptor.operands modeByte tail.head?
      · exact .inr (.inr (.inr (.operands hreach hfits hshort)))
      · exact .inl ⟨modeByte, descriptor, tail, hreach, hfits, Nat.not_lt.mp hshort⟩
    · simp only [Fits, Classical.not_forall, Classical.not_not] at hfits
      obtain ⟨byte, fault, rfl, hmisfit⟩ := hfits
      exact .inr (.inl ⟨byte, descriptor, tail, fault, hreach, hmisfit⟩)
  · exact .inr (.inr (.inl hunsupported))
  · exact .inr (.inr (.inr hlacks))

end Table

theorem Config.sizes_context (config : Config) (run : List UInt8) :
    (config.context (PrefixState.ofRun run)).sizes = config.sizes run := by
  unfold Context.sizes context operandWidth addressWidth sizes
  rw [PrefixState.operandSize_ofRun, PrefixState.addressSize_ofRun]

theorem Config.addressWidth_context_ne (config : Config) (prefixes : PrefixState) :
    (config.context prefixes).addressWidth ≠ .byte := by
  unfold context addressWidth CodeSize.width
  split <;> simp

namespace Decoder

variable {decoder : Decoder} {modeByte : Option ModeByte} {descriptor : Descriptor}
  {code tail : List UInt8}

theorem takes_body (hsound : decoder.table.Sound)
    (h : decoder.table.Reaches code modeByte descriptor tail)
    (hfits : Fits descriptor.operands modeByte) (run : List UInt8) (key : OpcodeKey) :
    Reader.Takes (do return Body.mk ⟨key, descriptor, modeByte⟩ (← Operand.readAll
        (decoder.config.context (PrefixState.ofRun run)) key.opcode modeByte descriptor.operands))
      tail ((decoder.config.sizes run).tailLength descriptor.operands modeByte tail.head?)
      fun _ => True := by
  obtain ⟨_, map, opcode, _, -, -, hselects, -⟩ := h
  rw [← decoder.config.sizes_context]
  exact Reader.takes_map (Operand.takes_readAll (decoder.config.addressWidth_context_ne _)
    (Descriptor.countP_usesRm_le (hselects.defect hsound)) hselects.isSome_of_usesModeByte hfits)
    fun _ _ => trivial

theorem readBehind_of_enough (hsound : decoder.table.Sound)
    (h : decoder.table.Reaches code modeByte descriptor tail)
    (hfits : Fits descriptor.operands modeByte) {run : List UInt8}
    (henough : (decoder.config.sizes run).tailLength descriptor.operands modeByte tail.head? ≤
      tail.length) :
    ∃ reading, decoder.readBehind run code = .ok reading ∧
      reading.size + tail.length = run.length + code.length +
        (decoder.config.sizes run).tailLength descriptor.operands modeByte tail.head? := by
  obtain ⟨key, hrun⟩ := Table.readBody_run_of_reaches h
    (decoder.config.context (PrefixState.ofRun run))
  obtain ⟨body, hbody, -⟩ := (takes_body hsound h hfits run key).1 henough
  obtain ⟨bytes, _, _, byte, -, -, -, hcode⟩ := h
  have hlen : tail.length ≤ code.length := by
    rw [hcode, List.length_append, List.length_append]
    omega
  unfold readBehind
  rw [hrun, hbody]
  refine ⟨_, rfl, ?_⟩
  simp only [List.length_drop]
  omega

theorem readBehind_of_short (hsound : decoder.table.Sound)
    (h : decoder.table.Reaches code modeByte descriptor tail)
    (hfits : Fits descriptor.operands modeByte) {run : List UInt8}
    (hshort : tail.length <
      (decoder.config.sizes run).tailLength descriptor.operands modeByte tail.head?) :
    decoder.readBehind run code = .error .endOfCode := by
  obtain ⟨key, hrun⟩ := Table.readBody_run_of_reaches h
    (decoder.config.context (PrefixState.ofRun run))
  unfold readBehind
  rw [hrun, (takes_body hsound h hfits run key).2 hshort]
  rfl

theorem readBehind_of_misfit (hsound : decoder.table.Sound) {byte : ModeByte} {fault : OperandFault}
    (h : decoder.table.Reaches code (some byte) descriptor tail)
    (hmisfit : Misfit descriptor.operands byte fault) (run : List UInt8) :
    decoder.readBehind run code = .error (.fault (.invalidOperand fault)) := by
  obtain ⟨key, hrun⟩ := Table.readBody_run_of_reaches h
    (decoder.config.context (PrefixState.ofRun run))
  obtain ⟨_, map, opcode, _, -, -, hselects, -⟩ := h
  unfold readBehind
  rw [hrun, Operand.readAll_of_misfit (Descriptor.countP_usesRm_le (hselects.defect hsound)) hmisfit]
  rfl

theorem readBehind_of_unsupported (hsound : decoder.table.Sound) {key : OpcodeKey}
    (h : decoder.table.Unsupported code key) (run : List UInt8) :
    decoder.readBehind run code = .error (.fault (.unsupportedOpcode key)) := by
  unfold readBehind
  cases h with
  | opcode hspells hnone =>
    rw [Table.readBody_run hspells, Table.select, Table.dispatch_eq_none hsound hnone]
    rfl
  | @member bytes rest map opcode byte other descriptor hspells hgroup hnone =>
    obtain ⟨group, hslot, -⟩ := Table.dispatch_of_lookup_some hgroup
    have hmember : group.member (ModeByte.ofByte byte).reg = none := by
      rw [Table.lookup, hslot] at hnone
      exact hnone
    rw [Table.readBody_run hspells, Table.select_group_run hslot, hmember]
    rfl

theorem readBehind_of_lacks (hsound : decoder.table.Sound) {run : List UInt8}
    (h : decoder.table.Lacks (decoder.config.sizes run) code) :
    decoder.readBehind run code = .error .endOfCode := by
  cases h with
  | opcode => exact readBehind_nil
  | secondOpcode => rfl
  | modeByte hspells htakes =>
    unfold readBehind
    rw [← List.append_nil code, Table.readBody_run hspells, Table.select_run_nil htakes]
    rfl
  | operands hreach hfits hshort => exact readBehind_of_short hsound hreach hfits hshort

theorem exists_reaches_of_readCode (hsound : decoder.table.Sound) {reading : Reading}
    (h : decoder.readCode code = .ok reading) : ∃ modeByte descriptor tail,
      decoder.table.Reaches (code.dropWhile Prefix.isByte) modeByte descriptor tail := by
  unfold readCode at h
  rcases Table.reaches_or hsound (decoder.config.sizes (code.takeWhile Prefix.isByte))
    (fun _ _ => PrefixState.isByte_of_dropWhile) with hreach | ⟨key, hunsupported⟩ | hlacks
  · exact hreach
  · rw [readBehind_of_unsupported hsound hunsupported] at h
    contradiction
  · rw [readBehind_of_lacks hsound hlacks] at h
    contradiction

theorem readAll_of_readCode {reading : Reading} (h : decoder.readCode code = .ok reading)
    (hreach : decoder.table.Reaches (code.dropWhile Prefix.isByte) modeByte descriptor tail) :
    ∃ (key : OpcodeKey) (operands : List Operand) (front rest : List UInt8),
      reading.body = ⟨⟨key, descriptor, modeByte⟩, operands⟩ ∧
      (Operand.readAll (decoder.config.context reading.prefixes) key.opcode modeByte
        descriptor.operands).run tail = .ok (operands, rest) ∧
      code = front ++ tail ∧ reading.size + rest.length = code.length := by
  unfold readCode readBehind at h
  obtain ⟨⟨body, rest⟩, hread, rfl⟩ := map_eq_ok_iff.mp h
  have hsplit := List.takeWhile_append_dropWhile (p := Prefix.isByte) (l := code)
  have hlen := PrefixState.length_takeWhile_add_dropWhile code
  obtain ⟨used, hused, -⟩ := Reader.run_used hread
  have hrest : rest.length ≤ (code.dropWhile Prefix.isByte).length := by
    rw [hused, List.length_append]
    omega
  obtain ⟨key, hrun⟩ := Table.readBody_run_of_reaches hreach
    (decoder.config.context (.ofRun (code.takeWhile Prefix.isByte)))
  rw [hrun, ← map_eq_pure_bind, Reader.run_map] at hread
  obtain ⟨⟨operands, after⟩, hoperands, heq⟩ := map_eq_ok_iff.mp hread
  simp only [Prod.mk.injEq] at heq
  obtain ⟨rfl, rfl⟩ := heq
  obtain ⟨bytes, _, _, byte, -, -, -, hcode⟩ := hreach
  refine ⟨key, operands, code.takeWhile Prefix.isByte ++ (bytes ++ byte.toList), after, rfl, hoperands,
    ?_, ?_⟩
  · rw [List.append_assoc, List.append_assoc, ← hcode, hsplit]
  · dsimp only
    omega

end Decoder
end IA32
