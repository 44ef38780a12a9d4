import HackToolchain.Proofs.Assembly.Link
import HackToolchain.Proofs.Assembly.Spelling

/-!
# Bindings are kept

Predefined symbols, labels and variables share one table. A call on the table changes it in one of
two ways, if at all: it binds a label that was not bound, or it gives a symbol that was not bound
the next cell. So a binding is kept for good, and cells are handed out one after another until there
is none left, whatever calls come between.
-/

namespace HackToolchain

namespace Assembly

namespace SymbolTable

/-- No two predefined symbols are the same. -/
theorem find?_of_mem_predefined {entry : String × Word} (h : entry ∈ Symbol.predefined)
    (table : SymbolTable) : table.find? entry.1 = some entry.2 := by
  have hfirst : ∀ entry ∈ Symbol.predefined, Symbol.predefined? entry.1 = some entry.2 := by
    decide
  exact find?_of_predefined (hfirst entry h) table

theorem find?_eq_none_iff {table : SymbolTable} {symbol : String} :
    table.find? symbol = none ↔ table.contains symbol = false := by
  rw [contains, Option.isSome_eq_false_iff, Option.isNone_iff_eq_none]

theorem exists_find?_iff {table : SymbolTable} {symbol : String} :
    (∃ address, table.find? symbol = some address) ↔ table.contains symbol = true :=
  Option.isSome_iff_exists.symm

theorem resolve_of_find? {table : SymbolTable} {symbol : String} {address : Word}
    (h : table.find? symbol = some address) : table.resolve symbol = (some address, table) := by
  rw [resolve, allocate_of_contains (exists_find?_iff.1 ⟨address, h⟩), h]

theorem resolve_of_hasRoom {table : SymbolTable} {symbol : String}
    (h : table.contains symbol = false) (hroom : table.hasRoom = true) :
    table.resolve symbol = (some table.nextVariable,
      ⟨table.bindings.insert symbol table.nextVariable, table.allocated + 1⟩) := by
  have hallocate : table.allocate symbol =
      ⟨table.bindings.insert symbol table.nextVariable, table.allocated + 1⟩ := by
    simp [allocate, h, hroom]
  rw [resolve, hallocate, find?_insert h, if_pos rfl]

theorem resolve_of_not_hasRoom {table : SymbolTable} {symbol : String}
    (h : table.contains symbol = false) (hfull : table.hasRoom = false) :
    table.resolve symbol = (none, table) := by
  have hallocate : table.allocate symbol = table := by
    simp [allocate, hfull]
  rw [resolve, hallocate, find?_eq_none_iff.2 h]

theorem hasRoom_iff {table : SymbolTable} :
    table.hasRoom = true ↔ table.allocated < MemoryMap.variableCount := by
  rw [hasRoom, decide_eq_true_eq]

inductive Call
  | insertLabel (label : String) (address : Word)
  | resolve (symbol : String)
  | find (symbol : String)
  | contains (symbol : String)
  deriving Repr, DecidableEq

/-- The answer to a call: whether something is so, or an address if there is one. -/
inductive Answer
  | truth (value : Bool)
  | address (found : Option Word)
  deriving Repr, DecidableEq

def perform (table : SymbolTable) : Call → Answer × SymbolTable
  | .insertLabel label address =>
    match table.insertLabel? label address with
    | some next => (.truth true, next)
    | none => (.truth false, table)
  | .resolve symbol =>
    let (found, next) := table.resolve symbol
    (.address found, next)
  | .find symbol => (.address (table.find? symbol), table)
  | .contains symbol => (.truth (table.contains symbol), table)

def performAll (table : SymbolTable) (calls : List Call) : SymbolTable :=
  calls.foldl (fun table call => (table.perform call).2) table

/-- The symbol that a call gives a cell to, and the cell. That is a symbol that was not bound and
that is resolved to an address. -/
def handedOut? (table : SymbolTable) : Call → Option (String × Word)
  | .resolve symbol =>
    if table.contains symbol then none else (table.resolve symbol).1.map (symbol, ·)
  | _ => none

/-- The symbols that calls give cells to, in order and with their cells. -/
def handedOut (table : SymbolTable) : List Call → List (String × Word)
  | [] => []
  | call :: calls => (table.handedOut? call).toList ++ (table.perform call).2.handedOut calls

/-- What a call can do to a table, with what it hands out. -/
inductive Change (table : SymbolTable) : Option (String × Word) → SymbolTable → Prop
  | nothing : Change table none table
  | label {label : String} (address : Word) (h : table.contains label = false) :
      Change table none { table with bindings := table.bindings.insert label address }
  | cell {symbol : String} (h : table.contains symbol = false) (hroom : table.hasRoom = true) :
      Change table (some (symbol, table.nextVariable))
        ⟨table.bindings.insert symbol table.nextVariable, table.allocated + 1⟩

theorem perform_insertLabel_of_contains {table : SymbolTable} {label : String}
    (h : table.contains label = true) (address : Word) :
    table.perform (.insertLabel label address) = (.truth false, table) := by
  rw [perform, insertLabel?_eq_none_iff.2 h]

theorem perform_insertLabel_of_not_contains {table : SymbolTable} {label : String}
    (h : table.contains label = false) (address : Word) :
    table.perform (.insertLabel label address) =
      (.truth true, { table with bindings := table.bindings.insert label address }) := by
  rw [perform, insertLabel?_of_not_contains h]

theorem change_perform (table : SymbolTable) (call : Call) :
    table.Change (table.handedOut? call) (table.perform call).2 := by
  cases call with
  | insertLabel label address =>
      cases h : table.contains label with
      | true =>
          rw [perform_insertLabel_of_contains h]
          exact .nothing
      | false =>
          rw [perform_insertLabel_of_not_contains h]
          exact .label address h
  | resolve symbol =>
      cases h : table.contains symbol with
      | true =>
          obtain ⟨address, hfind⟩ := exists_find?_iff.2 h
          rw [handedOut?, if_pos h, perform, resolve_of_find? hfind]
          exact .nothing
      | false =>
          rw [handedOut?, if_neg (Bool.eq_false_iff.1 h), perform]
          cases hroom : table.hasRoom with
          | true =>
              rw [resolve_of_hasRoom h hroom]
              exact .cell h hroom
          | false =>
              rw [resolve_of_not_hasRoom h hroom]
              exact .nothing
  | find symbol => exact .nothing
  | contains symbol => exact .nothing

/-- A label is refused exactly if it is bound, and then nothing changes. -/
theorem perform_insertLabel_eq_false_iff {table next : SymbolTable} {label : String}
    {address : Word} :
    table.perform (.insertLabel label address) = (.truth false, next) ↔
      (∃ bound, table.find? label = some bound) ∧ next = table := by
  rw [exists_find?_iff]
  cases h : table.contains label with
  | true => simp [perform_insertLabel_of_contains h, eq_comm]
  | false => simp [perform_insertLabel_of_not_contains h]

theorem find?_of_perform_insertLabel {table next : SymbolTable} {label : String} {address : Word}
    (h : table.perform (.insertLabel label address) = (.truth true, next)) (symbol : String) :
    next.find? symbol = if symbol = label then some address else table.find? symbol := by
  cases hlabel : table.contains label with
  | true => simp [perform_insertLabel_of_contains hlabel] at h
  | false =>
      rw [perform_insertLabel_of_not_contains hlabel] at h
      obtain ⟨-, rfl⟩ := Prod.mk.inj h
      exact find?_insert hlabel address table.allocated symbol

/-- A symbol is refused exactly if it is not bound and there is no cell left, and then nothing
changes. -/
theorem perform_resolve_eq_none_iff {table next : SymbolTable} {symbol : String} :
    table.perform (.resolve symbol) = (.address none, next) ↔
      table.find? symbol = none ∧ table.hasRoom = false ∧ next = table := by
  cases hsymbol : table.find? symbol with
  | some address => simp [perform, resolve_of_find? hsymbol]
  | none =>
      have hnew := find?_eq_none_iff.1 hsymbol
      cases hroom : table.hasRoom with
      | true => simp [perform, resolve_of_hasRoom hnew hroom]
      | false => simp [perform, resolve_of_not_hasRoom hnew hroom, eq_comm]

namespace Change

variable {table next : SymbolTable} {cell? : Option (String × Word)}

theorem find?_eq (h : table.Change cell? next) {symbol : String} {address : Word}
    (hfind : table.find? symbol = some address) : next.find? symbol = some address := by
  have hne {other : String} (hother : table.contains other = false) : symbol ≠ other := by
    rintro rfl
    rw [find?_eq_none_iff.2 hother] at hfind
    cases hfind
  cases h with
  | nothing => exact hfind
  | label address hlabel => rw [find?_insert hlabel, if_neg (hne hlabel), hfind]
  | cell hsymbol hroom => rw [find?_insert hsymbol, if_neg (hne hsymbol), hfind]

theorem allocated_eq (h : table.Change cell? next) :
    next.allocated = table.allocated + cell?.toList.length := by
  cases h <;> rfl

theorem allocated_le (h : table.Change cell? next)
    (hle : table.allocated ≤ MemoryMap.variableCount) :
    next.allocated ≤ MemoryMap.variableCount := by
  cases h with
  | nothing => exact hle
  | label address hlabel => exact hle
  | cell hsymbol hroom => exact hasRoom_iff.1 hroom

/-- What is handed out is the next cell, to a symbol that was not bound and is bound to it now. -/
theorem of_some {symbol : String} {cell : Word} (h : table.Change (some (symbol, cell)) next) :
    cell = variableCell table.allocated ∧ table.find? symbol = none ∧
      next.find? symbol = some cell := by
  cases h with
  | cell hsymbol hroom =>
      refine ⟨rfl, find?_eq_none_iff.2 hsymbol, ?_⟩
      rw [find?_insert hsymbol, if_pos rfl]

end Change

theorem performAll_cons (table : SymbolTable) (call : Call) (calls : List Call) :
    table.performAll (call :: calls) = (table.perform call).2.performAll calls := rfl

theorem handedOut_cons (table : SymbolTable) (call : Call) (calls : List Call) :
    table.handedOut (call :: calls) =
      (table.handedOut? call).toList ++ (table.perform call).2.handedOut calls := rfl

theorem find?_performAll {table : SymbolTable} {symbol : String} {address : Word}
    (h : table.find? symbol = some address) (calls : List Call) :
    (table.performAll calls).find? symbol = some address := by
  induction calls generalizing table with
  | nil => exact h
  | cons call calls ih => exact ih ((table.change_perform call).find?_eq h)

theorem allocated_performAll (table : SymbolTable) (calls : List Call) :
    (table.performAll calls).allocated = table.allocated + (table.handedOut calls).length := by
  induction calls generalizing table with
  | nil => rfl
  | cons call calls ih =>
      rw [performAll_cons, ih, (table.change_perform call).allocated_eq, handedOut_cons,
        List.length_append, Nat.add_assoc]

theorem allocated_performAll_le {table : SymbolTable}
    (h : table.allocated ≤ MemoryMap.variableCount) (calls : List Call) :
    (table.performAll calls).allocated ≤ MemoryMap.variableCount := by
  induction calls generalizing table with
  | nil => exact h
  | cons call calls ih => exact ih ((table.change_perform call).allocated_le h)

theorem map_snd_handedOut (table : SymbolTable) (calls : List Call) :
    (table.handedOut calls).map (·.2) =
      (List.range' table.allocated (table.handedOut calls).length).map variableCell := by
  induction calls generalizing table with
  | nil => rfl
  | cons call calls ih =>
      have hchange := table.change_perform call
      have hcount := hchange.allocated_eq
      rw [handedOut_cons]
      cases hcell : table.handedOut? call with
      | none =>
          rw [hcell] at hcount
          have hlater := ih (table.perform call).2
          rw [hcount] at hlater
          exact hlater
      | some entry =>
          rw [hcell] at hcount hchange
          have hlater := ih (table.perform call).2
          rw [hcount] at hlater
          rw [Option.toList_some, List.singleton_append, List.map_cons, List.length_cons,
            List.range'_succ, List.map_cons, hlater, hchange.of_some.1]
          rfl

theorem find?_of_mem_handedOut {table : SymbolTable} {calls : List Call} {symbol : String}
    {cell : Word} (h : (symbol, cell) ∈ table.handedOut calls) :
    (table.performAll calls).find? symbol = some cell := by
  induction calls generalizing table with
  | nil => cases h
  | cons call calls ih =>
      rw [handedOut_cons, List.mem_append, Option.mem_toList] at h
      rcases h with hcell | hlater
      · have hchange := table.change_perform call
        rw [hcell] at hchange
        exact find?_performAll hchange.of_some.2.2 calls
      · exact ih hlater

theorem allocated_performAll_initial (calls : List Call) :
    (initial.performAll calls).allocated = (initial.handedOut calls).length :=
  (allocated_performAll initial calls).trans (Nat.zero_add _)

theorem length_handedOut_le (calls : List Call) :
    (initial.handedOut calls).length ≤ MemoryMap.variableCount := by
  rw [← allocated_performAll_initial]
  exact allocated_performAll_le (Nat.zero_le MemoryMap.variableCount : initial.allocated ≤ _) calls

theorem hasRoom_performAll_iff {calls : List Call} :
    (initial.performAll calls).hasRoom = true ↔
      (initial.handedOut calls).length < MemoryMap.variableCount := by
  rw [hasRoom_iff, allocated_performAll_initial]

/-- From the start on, the cells that are handed out are those from 16 on. -/
theorem map_toNat_handedOut (calls : List Call) :
    (initial.handedOut calls).map (·.2.toNat) =
      List.range' 16 (initial.handedOut calls).length := by
  have hcells := congrArg (List.map UInt16.toNat) (map_snd_handedOut initial calls)
  have hle := length_handedOut_le calls
  generalize (initial.handedOut calls).length = count at hcells hle
  have htoNat : ∀ place ∈ List.range' 0 count, (variableCell place).toNat = 16 + place := by
    intro place hplace
    rw [List.mem_range'_1] at hplace
    exact toNat_variableCell (by omega)
  rw [List.map_map, List.map_map] at hcells
  exact hcells.trans ((List.map_congr_left htoNat).trans (List.map_add_range' 0 count 1))

theorem toNat_le_of_mem_handedOut {calls : List Call} {entry : String × Word}
    (h : entry ∈ initial.handedOut calls) : entry.2.toNat ≤ 32767 := by
  have hmem : entry.2.toNat ∈ List.range' 16 (initial.handedOut calls).length :=
    map_toNat_handedOut calls ▸ List.mem_map_of_mem h
  have hle : (initial.handedOut calls).length ≤ 32752 := length_handedOut_le calls
  rw [List.mem_range'_1] at hmem
  omega

/-- No cell is handed to two symbols, and no symbol is handed two cells. -/
theorem snd_eq_iff_of_mem_handedOut {calls : List Call} {entry other : String × Word}
    (hentry : entry ∈ initial.handedOut calls) (hother : other ∈ initial.handedOut calls) :
    entry.2 = other.2 ↔ entry.1 = other.1 := by
  constructor
  · intro heq
    have hnodup : ((initial.handedOut calls).map (·.2.toNat)).Nodup :=
      map_toNat_handedOut calls ▸ List.nodup_range'
    rw [List.inj_on_of_nodup_map hnodup hentry hother (congrArg UInt16.toNat heq)]
  · intro heq
    have hsame := find?_of_mem_handedOut hentry
    rw [heq, find?_of_mem_handedOut hother] at hsame
    exact (Option.some.inj hsame).symm

/-- Different symbols that are not bound are handed a cell each, as long as there are any, and other
symbols are none of their business. -/
theorem resolve_all {table : SymbolTable} {symbols : List String} (hnodup : symbols.Nodup)
    (hfree : ∀ symbol ∈ symbols, table.find? symbol = none)
    (hroom : table.allocated + symbols.length ≤ MemoryMap.variableCount) :
    (table.handedOut (symbols.map .resolve)).length = symbols.length ∧
      ∀ other ∉ symbols,
        (table.performAll (symbols.map .resolve)).find? other = table.find? other := by
  induction symbols generalizing table with
  | nil => exact ⟨rfl, fun _ _ => rfl⟩
  | cons symbol symbols ih =>
      obtain ⟨hsymbol, hsymbols⟩ := List.nodup_cons.1 hnodup
      obtain ⟨hnew, hrest⟩ := List.forall_mem_cons.1 hfree
      rw [find?_eq_none_iff] at hnew
      rw [List.length_cons] at hroom
      have hresolve := resolve_of_hasRoom hnew (hasRoom_iff.2 (by omega))
      obtain ⟨next, hnext, hcount, hfind⟩ : ∃ next,
          table.resolve symbol = (some table.nextVariable, next) ∧
          next.allocated = table.allocated + 1 ∧ ∀ other, next.find? other =
            if other = symbol then some table.nextVariable else table.find? other :=
        ⟨_, hresolve, rfl, find?_insert hnew _ _⟩
      have hlater : ∀ other ∈ symbols, next.find? other = none := by
        intro other hother
        have hne : other ≠ symbol := fun heq => hsymbol (heq ▸ hother)
        rw [hfind, if_neg hne, hrest other hother]
      obtain ⟨hcells, hkeep⟩ := ih hsymbols hlater (by omega)
      rw [List.map_cons, handedOut_cons, performAll_cons, handedOut?, perform, hnew, hnext]
      refine ⟨by simp [hcells], fun other hother => ?_⟩
      rw [List.mem_cons, not_or] at hother
      rw [hkeep other hother.2, hfind, if_neg hother.1]

/-- After any calls on the table that has the 23 predefined symbols only, these have their
addresses, and every binding is kept by all later calls. A label is refused exactly if it is bound,
and then nothing changes; otherwise it is bound, and no other symbol. A symbol that is bound is
resolved to its address, and nothing changes. The cells that have been handed out are those from 16
on in order, none of them past 32767, and no two symbols have the same. A symbol that is not bound
is handed the next of these cells, and it is refused exactly if 32752 cells have been handed out;
then nothing changes. -/
theorem bindings_are_kept (calls : List Call) :
    let table := initial.performAll calls
    let cells := initial.handedOut calls
    (Symbol.predefined.length = 23 ∧
      ∀ entry ∈ Symbol.predefined, table.find? entry.1 = some entry.2) ∧
    (∀ later symbol address, table.find? symbol = some address →
      (table.performAll later).find? symbol = some address) ∧
    (∀ label address next,
      (table.perform (.insertLabel label address) = (.truth false, next) ↔
        (∃ bound, table.find? label = some bound) ∧ next = table) ∧
      (table.perform (.insertLabel label address) = (.truth true, next) →
        ∀ symbol, next.find? symbol =
          if symbol = label then some address else table.find? symbol)) ∧
    (∀ symbol address, table.find? symbol = some address →
      table.perform (.resolve symbol) = (.address (some address), table)) ∧
    (cells.map (·.2.toNat) = List.range' 16 cells.length ∧
      (∀ entry ∈ cells, entry.2.toNat ≤ 32767 ∧ table.find? entry.1 = some entry.2) ∧
      ∀ entry ∈ cells, ∀ other ∈ cells, entry.2 = other.2 ↔ entry.1 = other.1) ∧
    (∀ symbol, table.find? symbol = none → cells.length < 32752 →
      ∃ cell next, table.perform (.resolve symbol) = (.address (some cell), next) ∧
        cell.toNat = 16 + cells.length ∧
        ∀ other, next.find? other = if other = symbol then some cell else table.find? other) ∧
    ∀ symbol next, table.perform (.resolve symbol) = (.address none, next) ↔
      table.find? symbol = none ∧ cells.length = 32752 ∧ next = table := by
  intro table cells
  refine ⟨⟨rfl, fun entry hentry => find?_of_mem_predefined hentry table⟩,
    fun later symbol address hfind => find?_performAll hfind later,
    fun label address next => ⟨perform_insertLabel_eq_false_iff, find?_of_perform_insertLabel⟩,
    fun symbol address hfind => ?_,
    ⟨map_toNat_handedOut calls,
      fun entry hentry => ⟨toNat_le_of_mem_handedOut hentry, find?_of_mem_handedOut hentry⟩,
      fun entry hentry other hother => snd_eq_iff_of_mem_handedOut hentry hother⟩,
    fun symbol hsymbol hlt => ?_, fun symbol next => ?_⟩
  · rw [perform, resolve_of_find? hfind]
  · have hnew := find?_eq_none_iff.1 hsymbol
    have hresolve := resolve_of_hasRoom hnew (hasRoom_performAll_iff.2 hlt)
    refine ⟨table.nextVariable, _, by rw [perform, hresolve], ?_, find?_insert hnew _ _⟩
    rw [nextVariable, allocated_performAll_initial]
    exact toNat_variableCell hlt
  · have hfull : table.hasRoom = false ↔ cells.length = 32752 := by
      rw [← Bool.not_eq_true, hasRoom_performAll_iff, Nat.not_lt]
      exact ⟨Nat.le_antisymm (length_handedOut_le calls), fun h => Nat.le_of_eq h.symm⟩
    rw [perform_resolve_eq_none_iff, hfull]

/-- The symbols `$0`, `$1` and so on use up the cells, and then no other symbol is handed one. -/
theorem bindings_are_kept_full :
    let calls := (List.range MemoryMap.variableCount).map fun n => Call.resolve ("$" ++ toString n)
    let table := initial.performAll calls
    table.perform (.resolve "i") = (.address none, table) := by
  intro calls table
  let symbols := (List.range MemoryMap.variableCount).map fun n => "$" ++ toString n
  have hcalls : calls = symbols.map .resolve := List.map_map.symm
  have hlength : symbols.length = MemoryMap.variableCount :=
    (List.length_map _).trans List.length_range
  have hnodup : symbols.Nodup :=
    List.nodup_range.map fun m n h => Text.toString_inj (String.append_right_inj _ |>.1 h)
  have hmark : ∀ symbol ∈ symbols, symbol.toList.head? = some '$' := by
    intro symbol hsymbol
    obtain ⟨n, -, rfl⟩ := List.mem_map.1 hsymbol
    rw [String.toList_append]
    rfl
  have hfree : ∀ symbol ∈ symbols, initial.find? symbol = none := by
    have hplain : ∀ entry ∈ Symbol.predefined, entry.1.toList.head? ≠ some '$' := by decide
    intro symbol hsymbol
    rw [find?_initial, Symbol.predefined?, List.lookup_eq_none_iff]
    exact fun entry hentry => bne_iff_ne.2 fun heq =>
      hplain entry hentry (heq ▸ hmark symbol hsymbol)
  have hroom : initial.allocated + symbols.length ≤ MemoryMap.variableCount := by
    rw [hlength]
    exact Nat.le_refl _
  obtain ⟨hcount, hkeep⟩ := resolve_all hnodup hfree hroom
  have hother : table.find? "i" = none := by
    rw [← hcalls] at hkeep
    rw [hkeep "i" fun hmem => absurd (hmark "i" hmem) (by decide), find?_initial]
    decide
  obtain ⟨-, -, -, -, -, -, hfull⟩ := bindings_are_kept calls
  exact (hfull "i" table).2 ⟨hother, by rw [hcalls, hcount, hlength, MemoryMap.variableCount], rfl⟩

end SymbolTable

end Assembly

end HackToolchain
