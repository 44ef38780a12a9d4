import HackToolchain.Proofs.Assembly.Acceptance

/-!
# Why code does not assemble

The first pass stops at the first label that is bound already or at the first instruction for which
there is no room in ROM. Generated code has no other fault until its symbols are looked up: a variable
may be left without a cell, and a label at the end of a full ROM stands for no address. Both are
ruled out by counting, the one by the variables and the other by the instructions.
-/

namespace HackToolchain

namespace Assembly

open Text (Numbered)

variable {κ : Type}

/-- The first pass stops at the first label that is bound already or where ROM is full. -/
theorem exists_of_bindLabels_eq_error {statements : List (Numbered (Statement κ))} {address : Nat}
    {table : SymbolTable} {fault : Numbered Fault}
    (h : bindLabels address table statements = .error fault) :
    ∃ before s after, statements = before ++ ⟨fault.line, s⟩ :: after ∧
      (∃ next, bindLabels address table before = .ok next) ∧
      ((∃ name, s = .label name ∧ fault.value = .duplicateLabel name ∧
          (table.contains name = true ∨ name ∈ labels (values before))) ∨
        ∃ i, s = .instruction i ∧ fault.value = .programTooLarge ∧
          address + codeSize (values before) = MemoryMap.romSize) := by
  induction statements generalizing address table with
  | nil => simp [bindLabels] at h
  | cons entry rest ih =>
      obtain ⟨line, s⟩ := entry
      cases s with
      | label name =>
          cases hc : table.contains name with
          | true =>
              obtain rfl : (⟨line, .duplicateLabel name⟩ : Numbered Fault) = fault := by
                simpa [bindLabels, SymbolTable.insertLabel?, hc] using h
              exact ⟨[], _, rest, rfl, ⟨table, rfl⟩, .inl ⟨name, rfl, rfl, .inl hc⟩⟩
          | false =>
              -- from here on the name is bound: it is in the table and among the labels before
              simp only [bindLabels, insertLabel?_of_not_contains hc] at h
              obtain ⟨before, s, after, rfl, hbefore, hfault⟩ := ih h
              refine ⟨⟨line, .label name⟩ :: before, s, after, rfl, ?_, ?_⟩
              · simpa only [bindLabels, insertLabel?_of_not_contains hc] using hbefore
              · rcases hfault with ⟨other, rfl, hvalue, hbound⟩ | ⟨i, rfl, hvalue, hfull⟩
                · refine .inl ⟨other, rfl, hvalue, ?_⟩
                  rw [values_cons, labels_label, List.mem_cons]
                  rw [SymbolTable.contains, SymbolTable.find?_insert hc] at hbound
                  by_cases heq : other = name
                  · exact .inr (.inl heq)
                  · rw [if_neg heq] at hbound
                    exact hbound.imp_right .inr
                · exact .inr ⟨i, rfl, hvalue, hfull⟩
      | instruction i =>
          simp only [bindLabels] at h
          split at h
          · next hfull =>
              obtain rfl := Except.error.inj h
              exact ⟨[], _, rest, rfl, ⟨table, rfl⟩, .inr ⟨i, rfl, rfl, hfull⟩⟩
          · next hroom =>
              obtain ⟨before, s, after, rfl, hbefore, hfault⟩ := ih h
              refine ⟨⟨line, .instruction i⟩ :: before, s, after, rfl, ?_, ?_⟩
              · simpa only [bindLabels, if_neg hroom] using hbefore
              · rw [values_cons, labels_instruction, codeSize_instruction]
                rcases hfault with hlabel | ⟨j, hs, hvalue, hfull⟩
                · exact .inl hlabel
                · exact .inr ⟨j, hs, hvalue, by omega⟩

/-- Whether labels can be bound: none is predefined or declared twice. -/
def AreFresh (labels : List String) : Prop :=
  labels.Nodup ∧ ∀ label ∈ labels, Symbol.predefined? label = none

/-- Why a statement does not link after others. -/
inductive Statement.IsUnlinkable (before : List (Statement κ)) : Statement κ → Fault → Prop
  /-- Its label is predefined or declared before. -/
  | duplicate {name : String} (h : Symbol.predefined? name ≠ none ∨ name ∈ labels before) :
      IsUnlinkable before (.label name) (.duplicateLabel name)
  /-- The instructions before it fill ROM. -/
  | full {i : Instruction κ} (h : codeSize before = 32768) :
      IsUnlinkable before (.instruction i) .programTooLarge

/-- What does not link stops at the first statement that does not link after those before it. -/
theorem exists_of_link_eq_error {statements : List (Numbered (Statement κ))}
    {fault : Numbered Fault} (h : link statements = .error fault) :
    ∃ before s after, statements = before ++ ⟨fault.line, s⟩ :: after ∧
      (∃ table, link before = .ok table) ∧ s.IsUnlinkable (values before) fault.value := by
  have hbind : bindLabels 0 .initial statements = .error fault := by
    rw [link] at h
    cases hbind : bindLabels 0 .initial statements with
    | ok table => simp [hbind, Except.map] at h
    | error fault' => simpa [hbind, Except.map] using h
  obtain ⟨before, s, after, hsplit, ⟨next, hbefore⟩, hfault⟩ := exists_of_bindLabels_eq_error hbind
  refine ⟨before, s, after, hsplit, ⟨_, by rw [link, hbefore]; rfl⟩, ?_⟩
  rcases hfault with ⟨name, rfl, hvalue, hbound⟩ | ⟨i, rfl, hvalue, hfull⟩
  · rw [hvalue]
    refine .duplicate (hbound.imp_left fun hcontains => ?_)
    rwa [SymbolTable.contains, SymbolTable.find?_initial, Option.isSome_iff_ne_none] at hcontains
  · rw [hvalue]
    exact .full ((Nat.zero_add _).symm.trans hfull)

theorem Statement.IsUnlinkable.clash_or_overflow {before : List (Statement κ)} {s : Statement κ}
    {fault : Fault} (h : s.IsUnlinkable before fault) (after : List (Statement κ)) :
    (∃ label, fault = .duplicateLabel label ∧ ¬AreFresh (labels (before ++ s :: after))) ∨
      fault = .programTooLarge ∧ MemoryMap.romSize < codeSize (before ++ s :: after) := by
  cases h with
  | @duplicate name hbound =>
      refine .inl ⟨name, rfl, fun ⟨hnodup, hfree⟩ => ?_⟩
      rw [labels_append, labels_label] at hnodup hfree
      rcases hbound with hpredefined | hmem
      · exact hpredefined (hfree name (List.mem_append_right _ List.mem_cons_self))
      · exact (List.nodup_append.1 hnodup).2.2 name hmem name List.mem_cons_self rfl
  | full hfull =>
      have hrom : MemoryMap.romSize = 32768 := rfl
      refine .inr ⟨rfl, ?_⟩
      rw [codeSize_append, codeSize_instruction]
      omega

theorem fault_of_link {statements : List (Numbered (Statement κ))} {fault : Numbered Fault}
    (h : link statements = .error fault) :
    (∃ label, fault.value = .duplicateLabel label ∧ ¬AreFresh (labels (values statements))) ∨
      fault.value = .programTooLarge ∧ MemoryMap.romSize < codeSize (values statements) := by
  obtain ⟨before, s, after, rfl, -, hfault⟩ := exists_of_link_eq_error h
  rw [values, List.map_append, List.map_cons]
  exact hfault.clash_or_overflow _

theorem exists_encode_of_mapM_eq_error {table : SymbolTable}
    {entries : List (Numbered (Instruction Spelling))} {fault : Numbered Fault}
    (h : entries.mapM (encodeLine table) = .error fault) :
    ∃ before entry after words, entries = before ++ entry :: after ∧
      before.mapM (encodeLine table) = .ok words ∧ entry.line = fault.line ∧
      encode table entry.value = .error fault.value := by
  obtain ⟨before, entry, after, words, hentries, hbefore, hentry⟩ := exists_of_mapM_eq_error h
  refine ⟨before, entry, after, words, hentries, hbefore, ?_⟩
  rw [encodeLine] at hentry
  cases hencode : encode table entry.value with
  | ok word => simp [hencode, Except.mapError] at hentry
  | error value =>
      obtain rfl : (⟨entry.line, value⟩ : Numbered Fault) = fault := by
        simpa [hencode, Except.mapError] using hentry
      exact ⟨rfl, rfl⟩

theorem fault_of_encode {table : SymbolTable} {i : Instruction Computation} {fault : Fault}
    (h : encode table i.spelled = .error fault) :
    ∃ name, i = .address (.symbol name) ∧
      (fault = .outOfVariables name ∧ table.find? name = none ∨
        fault = .addressOutOfRange name ∧
          ∃ address, table.find? name = some address ∧ ¬address ≤ MemoryMap.maxAddress) := by
  cases i with
  | compute c =>
      simp [Instruction.spelled, encode, c.resolve_spelling, Except.map] at h
  | address operand =>
      cases operand with
      | number value => simp [Instruction.spelled, encode] at h
      | symbol name =>
          refine ⟨name, rfl, ?_⟩
          rw [Instruction.spelled, encode] at h
          split at h
          · next hnone => exact .inl ⟨(Except.error.inj h).symm, hnone⟩
          · next address hfound =>
              split at h
              · simp at h
              · next hle => exact .inr ⟨(Except.error.inj h).symm, address, hfound, hle⟩

/-- Of the addresses up to the end of a full ROM, only the end itself is too large. -/
theorem eq_romSize_of_not_le {n : Nat} (hle : n ≤ MemoryMap.romSize)
    (hlarge : ¬(.ofNat n : Word) ≤ MemoryMap.maxAddress) : n = MemoryMap.romSize := by
  rw [UInt16.le_iff_toNat_le,
    UInt16.toNat_ofNat_of_lt' (Nat.lt_of_le_of_lt hle (by decide))] at hlarge
  exact Nat.le_antisymm hle (Nat.lt_of_not_le hlarge)

/-- Why generated lines do not assemble. -/
theorem fault_of_assemble {ls : List Line} (h : ∀ line ∈ ls, line.IsWritable)
    {fault : Numbered Fault} (hfault : assemble (Listing.ofLines ls.toArray).toText = .error fault) :
    (∃ label, fault.value = .duplicateLabel label ∧ ¬AreFresh (labels (statementsOf ls))) ∨
    (fault.value = .programTooLarge ∧ MemoryMap.romSize < codeSize (statementsOf ls)) ∨
    AreFresh (labels (statementsOf ls)) ∧ codeSize (statementsOf ls) ≤ MemoryMap.romSize ∧
      ∃ name ∈ (code (statementsOf ls)).filterMap Instruction.symbol?,
        fault.value = .outOfVariables name ∧ address? (statementsOf ls) name = none ∨
        fault.value = .addressOutOfRange name ∧
          ∃ address, address? (statementsOf ls) name = some address ∧
            ¬address ≤ MemoryMap.maxAddress := by
  obtain ⟨statements, hread, hvalues⟩ := exists_readText h
  have hvalues : values statements = (statementsOf ls).map Statement.spelled := hvalues
  rw [assemble, hread] at hfault
  cases hlink : link statements with
  | error fault' =>
      obtain rfl : fault' = fault := by
        simpa [bind, Except.bind, encodeAll, hlink] using hfault
      have hcases := fault_of_link hlink
      rw [hvalues, labels_map_spelled, codeSize_map_spelled] at hcases
      exact hcases.imp_right .inl
  | ok table =>
      obtain ⟨hnodup, hfree, hsize⟩ := (exists_link_iff statements).1 ⟨table, hlink⟩
      rw [hvalues, labels_map_spelled] at hnodup hfree
      rw [hvalues, codeSize_map_spelled] at hsize
      refine .inr (.inr ⟨⟨hnodup, hfree⟩, hsize, ?_⟩)
      have hmap : (instructions statements).mapM (encodeLine table) = .error fault := by
        cases hmap : (instructions statements).mapM (encodeLine table) with
        | ok words => simp [bind, Except.bind, encodeAll, hlink, hmap, pure, Except.pure] at hfault
        | error fault' => simpa [bind, Except.bind, encodeAll, hlink, hmap] using hfault
      obtain ⟨before, entry, after, -, hentries, -, -, hencode⟩ :=
        exists_encode_of_mapM_eq_error hmap
      have hmem : entry.value ∈ (code (statementsOf ls)).map Instruction.spelled := by
        rw [← code_map_spelled, ← hvalues, ← map_value_instructions, hentries]
        exact List.mem_map_of_mem (List.mem_append_right _ List.mem_cons_self)
      obtain ⟨i, hi, hvalue⟩ := List.mem_map.1 hmem
      rw [← hvalue] at hencode
      obtain ⟨name, rfl, hcases⟩ := fault_of_encode hencode
      rw [find?_of_link hlink, hvalues, address?_map_spelled] at hcases
      exact ⟨name, List.mem_filterMap.2 ⟨_, hi, rfl⟩, hcases⟩

/-- Generated lines do not assemble if a label is predefined or declared twice. -/
theorem exists_fault_of_not_areFresh {ls : List Line} (h : ∀ line ∈ ls, line.IsWritable)
    (hclash : ¬AreFresh (labels (statementsOf ls))) :
    ∃ fault, assemble (Listing.ofLines ls.toArray).toText = .error fault ∧
      ((∃ label, fault.value = .duplicateLabel label) ∨
        fault.value = .programTooLarge ∧ MemoryMap.romSize < codeSize (statementsOf ls)) := by
  cases hassemble : assemble (Listing.ofLines ls.toArray).toText with
  | ok code =>
      obtain ⟨hnodup, hfree, -⟩ := (assemble_eq_ok_iff h code).1 hassemble
      exact absurd ⟨hnodup, hfree⟩ hclash
  | error fault =>
      refine ⟨fault, rfl, ?_⟩
      rcases fault_of_assemble h hassemble with ⟨label, hvalue, -⟩ | hsize | ⟨hfresh, -⟩
      · exact .inl ⟨label, hvalue⟩
      · exact .inr hsize
      · exact absurd hfresh hclash

theorem fault_of_assemble_of_cells {ls : List Line} (h : ∀ line ∈ ls, line.IsWritable)
    (hcells : codeSize (statementsOf ls) ≤ MemoryMap.romSize →
      (variableSymbols (statementsOf ls)).length ≤ MemoryMap.variableCount)
    {fault : Numbered Fault} (hfault : assemble (Listing.ofLines ls.toArray).toText = .error fault) :
    (∃ label, fault.value = .duplicateLabel label ∧ ¬AreFresh (labels (statementsOf ls))) ∨
    (fault.value = .programTooLarge ∧ MemoryMap.romSize < codeSize (statementsOf ls)) ∨
    ∃ label, fault.value = .addressOutOfRange label ∧
      codeSize (statementsOf ls) ≤ MemoryMap.romSize ∧
      labelAddress? label (statementsOf ls) = some MemoryMap.romSize := by
  rcases fault_of_assemble h hfault with
    hlabel | hsize | ⟨-, hsize, name, hused, hcases⟩
  · exact .inl hlabel
  · exact .inr (.inl hsize)
  · obtain ⟨address, haddress, hle⟩ := exists_address?_or_label (hcells hsize) hused
    rw [haddress] at hcases
    rcases hcases with ⟨-, hnone⟩ | ⟨hvalue, address', hsome, hlarge⟩
    · simp at hnone
    · obtain rfl := Option.some.inj hsome
      obtain ⟨n, hfound, rfl⟩ := hle.resolve_left hlarge
      refine .inr (.inr ⟨name, hvalue, hsize, ?_⟩)
      rw [hfound, eq_romSize_of_not_le (Nat.le_trans (labelAddress?_le hfound) hsize) hlarge]

end Assembly

end HackToolchain
