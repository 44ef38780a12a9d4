import HackToolchain.Symbol
import Std.Data.TreeMap

/-!
# The symbol table

A table binds symbols to addresses. The predefined symbols are bound from the start. A label is bound
to the address of an instruction, and any symbol not bound yet can be allocated the next free cell of
RAM, from cell 16 to the last. A binding never changes.
-/

namespace HackToolchain

namespace Assembly

/-- The symbols bound besides the predefined ones, and how many of them were allocated a cell. -/
structure SymbolTable where
  bindings : Std.TreeMap String Word
  allocated : Nat

namespace SymbolTable

def initial : SymbolTable :=
  ⟨∅, 0⟩

def find? (table : SymbolTable) (symbol : String) : Option Word :=
  (Symbol.predefined? symbol).or table.bindings[symbol]?

def contains (table : SymbolTable) (symbol : String) : Bool :=
  (table.find? symbol).isSome

/-- Binds a label, unless the symbol is bound already. -/
def insertLabel? (table : SymbolTable) (label : String) (address : Word) : Option SymbolTable :=
  if table.contains label then none
  else some { table with bindings := table.bindings.insert label address }

def hasRoom (table : SymbolTable) : Bool :=
  table.allocated < MemoryMap.variableCount

def nextVariable (table : SymbolTable) : Word :=
  MemoryMap.variableBase + .ofNat table.allocated

/-- Gives a symbol that is not bound the next cell, as long as there is one. -/
def allocate (table : SymbolTable) (symbol : String) : SymbolTable :=
  if table.contains symbol || !table.hasRoom then table
  else ⟨table.bindings.insert symbol table.nextVariable, table.allocated + 1⟩

/-- The address of a symbol after allocation, and the table that results. -/
def resolve (table : SymbolTable) (symbol : String) : Option Word × SymbolTable :=
  let next := table.allocate symbol
  (next.find? symbol, next)

@[simp] theorem find?_initial (symbol : String) :
    initial.find? symbol = Symbol.predefined? symbol := by
  simp [find?, initial]

theorem find?_of_predefined {symbol : String} {address : Word}
    (h : Symbol.predefined? symbol = some address) (table : SymbolTable) :
    table.find? symbol = some address := by
  simp [find?, h]

theorem predefined?_eq_none_of_not_contains {table : SymbolTable} {symbol : String}
    (h : table.contains symbol = false) : Symbol.predefined? symbol = none := by
  cases hp : Symbol.predefined? symbol with
  | none => rfl
  | some address => simp [contains, find?_of_predefined hp] at h

theorem find?_insert {table : SymbolTable} {symbol : String}
    (h : table.contains symbol = false) (address : Word) (count : Nat) (other : String) :
    (SymbolTable.mk (table.bindings.insert symbol address) count).find? other =
      if other = symbol then some address else table.find? other := by
  have hp := predefined?_eq_none_of_not_contains h
  by_cases heq : other = symbol
  · subst heq
    simp [find?, hp]
  · have hne : ¬ symbol = other := fun h' => heq h'.symm
    simp [find?, Std.TreeMap.getElem?_insert, heq, hne]

theorem insertLabel?_eq_none_iff {table : SymbolTable} {label : String} {address : Word} :
    table.insertLabel? label address = none ↔ table.contains label = true := by
  simp [insertLabel?]

theorem allocate_of_contains {table : SymbolTable} {symbol : String}
    (h : table.contains symbol = true) : table.allocate symbol = table := by
  simp [allocate, h]

end SymbolTable

end Assembly

end HackToolchain
