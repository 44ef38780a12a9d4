import HackToolchain.Assembly.Assemble
import HackToolchain.Proofs.List

/-!
# Where symbols lie

`link` goes over the statements twice with a table. Here the table it ends with is given by the
statements alone: a predefined symbol has its fixed address, a label the number of instructions
before its declaration, and every other symbol a cell that depends only on how many such symbols
were used before. Linking succeeds exactly when no label is predefined or declared twice and the
instructions fit into ROM.
-/

namespace HackToolchain

namespace Assembly

open Text (Numbered)

variable {κ : Type}

def code (statements : List (Statement κ)) : List (Instruction κ) :=
  statements.filterMap Statement.instruction?

def codeSize (statements : List (Statement κ)) : Nat :=
  (code statements).length

@[simp] theorem codeSize_nil : codeSize ([] : List (Statement κ)) = 0 := rfl

@[simp] theorem codeSize_label (name : String) (rest : List (Statement κ)) :
    codeSize (.label name :: rest) = codeSize rest := rfl

@[simp] theorem codeSize_instruction (i : Instruction κ) (rest : List (Statement κ)) :
    codeSize (.instruction i :: rest) = codeSize rest + 1 := rfl

theorem code_append (before after : List (Statement κ)) :
    code (before ++ after) = code before ++ code after :=
  List.filterMap_append

@[simp] theorem codeSize_append (before after : List (Statement κ)) :
    codeSize (before ++ after) = codeSize before + codeSize after := by
  simp [codeSize, code_append]

def Statement.label? : Statement κ → Option String
  | .label name => some name
  | .instruction _ => none

def labels (statements : List (Statement κ)) : List String :=
  statements.filterMap Statement.label?

@[simp] theorem labels_nil : labels ([] : List (Statement κ)) = [] := rfl

@[simp] theorem labels_label (name : String) (rest : List (Statement κ)) :
    labels (.label name :: rest) = name :: labels rest := rfl

@[simp] theorem labels_instruction (i : Instruction κ) (rest : List (Statement κ)) :
    labels (.instruction i :: rest) = labels rest := rfl

@[simp] theorem labels_append (before after : List (Statement κ)) :
    labels (before ++ after) = labels before ++ labels after :=
  List.filterMap_append

/-- The number of instructions before the first declaration of a label. -/
def labelAddress? (name : String) : List (Statement κ) → Option Nat
  | [] => none
  | .label other :: rest => if name = other then some 0 else labelAddress? name rest
  | .instruction _ :: rest => (labelAddress? name rest).map (· + 1)

theorem labelAddress?_eq_none_iff {name : String} {statements : List (Statement κ)} :
    labelAddress? name statements = none ↔ name ∉ labels statements := by
  induction statements with
  | nil => simp [labelAddress?]
  | cons s rest ih =>
      cases s with
      | label other =>
          by_cases h : name = other
          · simp [labelAddress?, h]
          · simp [labelAddress?, h, ih]
      | instruction i => simp [labelAddress?, ih]

theorem labelAddress?_append_label {name : String} {before : List (Statement κ)}
    (h : name ∉ labels before) (after : List (Statement κ)) :
    labelAddress? name (before ++ .label name :: after) = some (codeSize before) := by
  induction before with
  | nil => simp [labelAddress?]
  | cons s before ih =>
      cases s with
      | label other =>
          simp only [labels_label, List.mem_cons, not_or] at h
          simp [labelAddress?, h.1, ih h.2]
      | instruction i =>
          simp only [labels_instruction] at h
          simp [labelAddress?, ih h]

theorem labelAddress?_append (name : String) (before after : List (Statement κ)) :
    labelAddress? name (before ++ after) = (labelAddress? name before).or
      ((labelAddress? name after).map (codeSize before + ·)) := by
  induction before with
  | nil => simp [labelAddress?]
  | cons s before ih =>
      cases s with
      | label other =>
          by_cases h : name = other
          · simp [labelAddress?, h]
          · simp [labelAddress?, h, ih]
      | instruction i =>
          rw [List.cons_append, labelAddress?, labelAddress?, ih]
          cases labelAddress? name before with
          | some n => rfl
          | none => simp [Function.comp_def, Nat.add_right_comm]

theorem labelAddress?_le {name : String} {statements : List (Statement κ)} {address : Nat}
    (h : labelAddress? name statements = some address) : address ≤ codeSize statements := by
  induction statements generalizing address with
  | nil => simp [labelAddress?] at h
  | cons s rest ih =>
      cases s with
      | label other =>
          by_cases heq : name = other
          · simp only [labelAddress?, heq, if_true, Option.some.injEq] at h
            omega
          · simp only [labelAddress?, heq, if_false] at h
            simpa using ih h
      | instruction i =>
          simp only [labelAddress?, Option.map_eq_some_iff] at h
          obtain ⟨before, hbefore, rfl⟩ := h
          simpa using ih hbefore

/-- The symbols that statements use as variables, in the order of their first use. -/
def variableSymbols (statements : List (Statement κ)) : List String :=
  (((code statements).filterMap Instruction.symbol?).filter fun symbol =>
    (Symbol.predefined? symbol).isNone && (labelAddress? symbol statements).isNone).eraseDups

/-- The cell of the variable at a place in the list of all variables. -/
def variableCell (place : Nat) : Word :=
  MemoryMap.variableBase + .ofNat place

/-- The address that a symbol stands for among statements. -/
def address? (statements : List (Statement κ)) (symbol : String) : Option Word :=
  ((Symbol.predefined? symbol).or ((labelAddress? symbol statements).map .ofNat)).or
    (((variableSymbols statements).take MemoryMap.variableCount).idxOf? symbol |>.map variableCell)

theorem exists_variableCell {statements : List (Statement κ)} {symbol : String} {address : Word}
    (hpredefined : Symbol.predefined? symbol = none) (hlabel : symbol ∉ labels statements)
    (h : address? statements symbol = some address) :
    ∃ place < MemoryMap.variableCount, address = variableCell place ∧
      (variableSymbols statements)[place]? = some symbol := by
  have hnone := labelAddress?_eq_none_iff.2 hlabel
  simp only [address?, hpredefined, hnone, Option.map_none, Option.or_none, Option.none_or,
    Option.map_eq_some_iff] at h
  obtain ⟨place, hplace, rfl⟩ := h
  obtain ⟨hlt, heq, -⟩ := List.idxOf?_eq_some_iff.1 hplace
  rw [List.length_take] at hlt
  refine ⟨place, by omega, rfl, ?_⟩
  rw [← heq, List.getElem_take]
  exact List.getElem?_eq_getElem (by omega)

theorem free_of_address?_eq_none {statements : List (Statement κ)} {symbol : String}
    (h : address? statements symbol = none) :
    Symbol.predefined? symbol = none ∧ labelAddress? symbol statements = none := by
  rw [address?, Option.or_eq_none_iff, Option.or_eq_none_iff, Option.map_eq_none_iff] at h
  exact h.1

theorem free_of_mem_variableSymbols {statements : List (Statement κ)} {symbol : String}
    (h : symbol ∈ variableSymbols statements) :
    Symbol.predefined? symbol = none ∧ labelAddress? symbol statements = none := by
  rw [variableSymbols, List.mem_eraseDups, List.mem_filter, Bool.and_eq_true,
    Option.isNone_iff_eq_none, Option.isNone_iff_eq_none] at h
  exact h.2

theorem address?_of_variableSymbols {statements : List (Statement κ)} {symbol : String}
    {place : Nat} (hplace : place < MemoryMap.variableCount)
    (h : (variableSymbols statements)[place]? = some symbol) :
    address? statements symbol = some (variableCell place) := by
  obtain ⟨hlt, heq⟩ := List.getElem?_eq_some_iff.1 h
  obtain ⟨hpredefined, hlabel⟩ := free_of_mem_variableSymbols (List.mem_of_getElem? h)
  have hindex : ((variableSymbols statements).take MemoryMap.variableCount).idxOf? symbol =
      some place := by
    refine List.idxOf?_eq_some_iff.2 ⟨by rw [List.length_take]; omega, ?_, fun j hj heq' => ?_⟩
    · rw [List.getElem_take, heq]
    · rw [List.getElem_take] at heq'
      have hfound := (List.getElem?_eq_getElem (Nat.lt_trans hj hlt)).trans (congrArg some heq')
      have hsame := (List.getElem?_inj (Nat.lt_trans hj hlt) (nodup_eraseDups _)).1
        (hfound.trans h.symm)
      omega
  rw [address?, hpredefined, hlabel, hindex]
  rfl

theorem toNat_variableCell {place : Nat} (h : place < MemoryMap.variableCount) :
    (variableCell place).toNat = 16 + place := by
  have hlt : place < 32752 := h
  have hsize : place < UInt16.size := Nat.lt_trans hlt (by decide)
  rw [variableCell, UInt16.toNat_add, UInt16.toNat_ofNat_of_lt' hsize]
  have hbase : MemoryMap.variableBase.toNat = 16 := rfl
  omega

def values (statements : List (Numbered (Statement κ))) : List (Statement κ) :=
  statements.map (·.value)

@[simp] theorem values_nil : values ([] : List (Numbered (Statement κ))) = [] := rfl

@[simp] theorem values_cons (line : Nat) (s : Statement κ)
    (rest : List (Numbered (Statement κ))) : values (⟨line, s⟩ :: rest) = s :: values rest := rfl

theorem insertLabel?_of_not_contains {table : SymbolTable} {label : String}
    (h : table.contains label = false) (address : Word) :
    table.insertLabel? label address =
      some { table with bindings := table.bindings.insert label address } := by
  simp [SymbolTable.insertLabel?, h]

/-- After the first pass a table answers as before, and for a new label with its address. -/
theorem find?_of_bindLabels {statements : List (Numbered (Statement κ))} {address : Nat}
    {table next : SymbolTable} (h : bindLabels address table statements = .ok next) :
    (∀ symbol, next.find? symbol = (table.find? symbol).or
      ((labelAddress? symbol (values statements)).map fun n => .ofNat (address + n))) ∧
    next.allocated = table.allocated := by
  induction statements generalizing address table with
  | nil =>
      simp only [bindLabels, Except.ok.injEq] at h
      simp [h, labelAddress?]
  | cons entry rest ih =>
      obtain ⟨line, s⟩ := entry
      cases s with
      | label name =>
          cases hc : table.contains name with
          | true => simp [bindLabels, SymbolTable.insertLabel?, hc] at h
          | false =>
              simp only [bindLabels, insertLabel?_of_not_contains hc] at h
              obtain ⟨hfind, hcount⟩ := ih h
              refine ⟨fun symbol => ?_, hcount⟩
              rw [hfind, SymbolTable.find?_insert hc]
              by_cases heq : symbol = name
              · have hnone : table.find? name = none := by
                  simpa [SymbolTable.contains] using hc
                simp [heq, labelAddress?, hnone]
              · simp [heq, labelAddress?]
      | instruction i =>
          simp only [bindLabels] at h
          split at h
          · simp at h
          · obtain ⟨hfind, hcount⟩ := ih h
            refine ⟨fun symbol => ?_, hcount⟩
            rw [hfind]
            simp [labelAddress?, Option.map_map, Function.comp_def, Nat.add_assoc, Nat.add_comm 1]

/-- The first pass succeeds when no label is bound twice and the instructions fit into ROM. -/
theorem exists_bindLabels_iff {statements : List (Numbered (Statement κ))} {address : Nat}
    (haddress : address ≤ MemoryMap.romSize) (table : SymbolTable) :
    (∃ next, bindLabels address table statements = .ok next) ↔
      (labels (values statements)).Nodup ∧
      (∀ label ∈ labels (values statements), table.contains label = false) ∧
      address + codeSize (values statements) ≤ MemoryMap.romSize := by
  induction statements generalizing address table with
  | nil => simpa [bindLabels] using haddress
  | cons entry rest ih =>
      obtain ⟨line, s⟩ := entry
      cases s with
      | label name =>
          cases hc : table.contains name with
          | true => simp [bindLabels, SymbolTable.insertLabel?, hc]
          | false =>
              have hnew (label : String) (bindings) :
                  (SymbolTable.mk (table.bindings.insert name bindings) table.allocated).contains
                    label = (label == name || table.contains label) := by
                rw [SymbolTable.contains, SymbolTable.find?_insert hc]
                by_cases heq : label = name <;> simp [heq, SymbolTable.contains]
              simp only [bindLabels, insertLabel?_of_not_contains hc, ih haddress, values_cons,
                labels_label, codeSize_label, List.nodup_cons, List.forall_mem_cons, hc, true_and,
                hnew, Bool.or_eq_false_iff, beq_eq_false_iff_ne]
              constructor
              · rintro ⟨hnodup, hfresh, hsize⟩
                exact ⟨⟨fun hmem => (hfresh name hmem).1 rfl, hnodup⟩,
                  fun label hmem => (hfresh label hmem).2, hsize⟩
              · rintro ⟨⟨hname, hnodup⟩, hfresh, hsize⟩
                refine ⟨hnodup, fun label hmem => ⟨?_, hfresh label hmem⟩, hsize⟩
                rintro rfl
                exact hname hmem
      | instruction i =>
          simp only [bindLabels, values_cons, labels_instruction, codeSize_instruction]
          split
          · next hfull =>
              simp only [reduceCtorEq, exists_false, false_iff]
              omega
          · next hroom =>
              rw [ih (by omega)]
              simp only [Nat.add_assoc, Nat.add_comm 1]

/-- Symbols without repetitions, each at its first place, that a table does not bind. -/
def newSymbols (table : SymbolTable) (used : List String) : List String :=
  (used.filter fun symbol => !table.contains symbol).eraseDups

theorem newSymbols_append (table : SymbolTable) (used : List String) (symbol : String) :
    newSymbols table (used ++ [symbol]) =
      if table.contains symbol = true ∨ symbol ∈ newSymbols table used then newSymbols table used
      else newSymbols table used ++ [symbol] := by
  cases hc : table.contains symbol with
  | true => simp [newSymbols, List.filter_append, hc]
  | false =>
      have hlast : [symbol].filter (fun symbol => !table.contains symbol) = [symbol] := by
        simp [hc]
      rw [newSymbols, List.filter_append, hlast, eraseDups_append_singleton]
      simp only [newSymbols, List.mem_eraseDups, Bool.false_eq_true, false_or]

/-- The table after the allocation of symbols: what was bound is bound as before, and the new
symbols have the cells in order as long as there are any. -/
theorem find?_foldl_allocate {table : SymbolTable} (h : table.allocated = 0)
    (used : List String) :
    (∀ symbol, (used.foldl SymbolTable.allocate table).find? symbol = (table.find? symbol).or
      (((newSymbols table used).take MemoryMap.variableCount).idxOf? symbol |>.map variableCell)) ∧
    (used.foldl SymbolTable.allocate table).allocated =
      ((newSymbols table used).take MemoryMap.variableCount).length := by
  induction used using List.reverseRecOn with
  | nil => simp [newSymbols, h]
  | append_singleton used last ih =>
      obtain ⟨hfind, hcount⟩ := ih
      rw [List.foldl_append, List.foldl_cons, List.foldl_nil]
      generalize used.foldl SymbolTable.allocate table = current at hfind hcount
      rw [newSymbols_append]
      generalize newSymbols table used = fresh at hfind hcount
      have hbound : current.contains last = true ↔
          table.contains last = true ∨ last ∈ fresh.take MemoryMap.variableCount := by
        rw [SymbolTable.contains, hfind, SymbolTable.contains]
        simp [List.isSome_idxOf?]
      -- without a cell left the table stays as it is, and so do the cells that it gave
      have hfull : MemoryMap.variableCount ≤ fresh.length → current.allocate last = current := by
        intro hlong
        have hroom : current.hasRoom = false := by
          simp [SymbolTable.hasRoom, hcount, hlong]
        simp [SymbolTable.allocate, hroom]
      by_cases hfresh : table.contains last = true ∨ last ∈ fresh
      · rw [if_pos hfresh]
        have hkeep : current.allocate last = current := by
          by_cases hlong : MemoryMap.variableCount ≤ fresh.length
          · exact hfull hlong
          · apply SymbolTable.allocate_of_contains
            rwa [hbound, List.take_of_length_le (by omega)]
        rw [hkeep]
        exact ⟨hfind, hcount⟩
      · rw [if_neg hfresh]
        by_cases hlong : MemoryMap.variableCount ≤ fresh.length
        · rw [hfull hlong, List.take_append_of_le_length hlong]
          exact ⟨hfind, hcount⟩
        · rw [not_or] at hfresh
          have hshort : fresh.take MemoryMap.variableCount = fresh :=
            List.take_of_length_le (by omega)
          rw [hshort] at hfind hcount hbound
          have hnew : current.contains last = false := by
            rw [← Bool.not_eq_true, hbound, not_or]
            exact hfresh
          have hroom : current.hasRoom = true := by
            simp only [SymbolTable.hasRoom, hcount, decide_eq_true_eq]
            omega
          have hadd : current.allocate last =
              ⟨current.bindings.insert last current.nextVariable, current.allocated + 1⟩ := by
            simp [SymbolTable.allocate, hnew, hroom]
          have hnone : table.find? last = none := by
            simpa [SymbolTable.contains] using hfresh.1
          rw [hadd, List.take_of_length_le (by simp; omega)]
          refine ⟨fun symbol => ?_, by simp [hcount]⟩
          rw [SymbolTable.find?_insert hnew, hfind, idxOf?_append_singleton hfresh.2]
          by_cases heq : symbol = last
          · simp [heq, hnone, SymbolTable.nextVariable, variableCell, hcount]
          · simp [heq]

theorem map_value_instructions (statements : List (Numbered (Statement κ))) :
    (instructions statements).map (·.value) = code (values statements) := by
  rw [instructions, code, values, List.map_filterMap, List.filterMap_map]
  congr 1
  funext entry
  simp only [Option.map_map, Function.comp_def, Option.map_id']

theorem exists_of_instructions_eq_append {statements : List (Numbered (Statement κ))}
    {before after : List (Numbered (Instruction κ))} {entry : Numbered (Instruction κ)}
    (h : instructions statements = before ++ entry :: after) :
    ∃ first rest, statements = first ++ ⟨entry.line, .instruction entry.value⟩ :: rest ∧
      instructions first = before := by
  obtain ⟨first, others, rfl, hfirst, hothers⟩ := List.filterMap_eq_append_iff.1 h
  obtain ⟨skipped, ⟨line, s⟩, rest, rfl, hskipped, hs, -⟩ := List.filterMap_eq_cons_iff.1 hothers
  cases s with
  | label name => simp [Statement.instruction?] at hs
  | instruction i =>
      obtain rfl : ⟨line, i⟩ = entry := by simpa [Statement.instruction?] using hs
      refine ⟨first ++ skipped, rest, (List.append_assoc ..).symm, ?_⟩
      rw [instructions, List.filterMap_append, hfirst, List.filterMap_eq_nil_iff.2 hskipped,
        List.append_nil]

theorem find?_of_link {statements : List (Numbered (Statement κ))} {table : SymbolTable}
    (h : link statements = .ok table) (symbol : String) :
    table.find? symbol = address? (values statements) symbol := by
  cases hlabels : bindLabels 0 .initial statements with
  | error fault => simp [link, hlabels, Except.map] at h
  | ok bound =>
      obtain ⟨hfind, hcount⟩ := find?_of_bindLabels hlabels
      have hbound (symbol : String) : bound.find? symbol = (Symbol.predefined? symbol).or
          ((labelAddress? symbol (values statements)).map .ofNat) := by
        simpa using hfind symbol
      have hnew : newSymbols bound ((code (values statements)).filterMap Instruction.symbol?) =
          variableSymbols (values statements) := by
        simp only [newSymbols, variableSymbols]
        congr 2
        funext symbol
        rw [SymbolTable.contains, hbound]
        cases Symbol.predefined? symbol <;> cases labelAddress? symbol (values statements) <;> rfl
      simp only [link, hlabels, Except.map, Except.ok.injEq] at h
      rw [← h, allocateVariables]
      have hused : (instructions statements).filterMap (·.value.symbol?) =
          (code (values statements)).filterMap Instruction.symbol? := by
        rw [← map_value_instructions, List.filterMap_map]
        rfl
      rw [hused, (find?_foldl_allocate hcount _).1, hnew, hbound]
      rfl

/-- Linking succeeds when no label is predefined or declared twice and the instructions fit into
ROM. -/
theorem exists_link_iff (statements : List (Numbered (Statement κ))) :
    (∃ table, link statements = .ok table) ↔
      (labels (values statements)).Nodup ∧
      (∀ label ∈ labels (values statements), Symbol.predefined? label = none) ∧
      codeSize (values statements) ≤ MemoryMap.romSize := by
  have hlink : (∃ table, link statements = .ok table) ↔
      ∃ bound, bindLabels 0 .initial statements = .ok bound := by
    rw [link]
    cases bindLabels 0 .initial statements <;> simp [Except.map]
  rw [hlink, exists_bindLabels_iff (Nat.zero_le _)]
  simp [SymbolTable.contains]

/-- What assembles was read, linked and encoded. -/
theorem exists_link_of_assemble {text : String} {code : MachineCode}
    (h : assemble text = .ok code) :
    ∃ statements table, readText text = .ok statements ∧ link statements = .ok table ∧
      (instructions statements).mapM (encodeLine table) = .ok code.words.toList := by
  obtain ⟨statements, hread, h⟩ := exists_of_bind_eq_ok h
  obtain ⟨words, hencode, h⟩ := exists_of_bind_eq_ok h
  obtain ⟨table, hlink, hwords⟩ := exists_of_bind_eq_ok hencode
  obtain rfl := Except.ok.inj h
  exact ⟨statements, table, hread, hlink, hwords⟩

end Assembly

end HackToolchain
