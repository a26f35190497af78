import Std.Data.HashMap
import WeightedParsing.Error
import WeightedParsing.Text.Blank

/-!
# Symbols and their names

A symbol is a small number.  A symbol table gives the numbers out in the order
in which names first come, so the same text always leads to the same symbols.
Terminals and nonterminals share one table.
-/

namespace WeightedParsing

/-- A grammar symbol: its position in the symbol table that names it. -/
structure Symbol where
  id : Nat
deriving DecidableEq, Hashable, Repr, Inhabited

/-- The distinct symbols of a list by increasing number. -/
def Symbol.sortDistinct (symbols : List Symbol) : List Symbol :=
  symbols.eraseDups.mergeSort fun a b => a.id ≤ b.id

/-- Names by symbol, and symbols by name. -/
structure SymbolTable where
  names : Array String
  ids : Std.HashMap String Symbol
deriving Inhabited

namespace SymbolTable

def empty : SymbolTable := ⟨#[], ∅⟩

def get? (table : SymbolTable) (name : String) : Option Symbol :=
  table.ids[name]?

/-- The symbol of a name, which joins the table if it is new. -/
def intern (name : String) (table : SymbolTable) : Symbol × SymbolTable :=
  match table.get? name with
  | some symbol => (symbol, table)
  | none =>
      let symbol : Symbol := ⟨table.names.size⟩
      (symbol, ⟨table.names.push name, table.ids.insert name symbol⟩)

def internList : List String → SymbolTable → List Symbol × SymbolTable
  | [], table => ([], table)
  | name :: rest, table =>
      let (symbol, table) := table.intern name
      let (symbols, table) := internList rest table
      (symbol :: symbols, table)

def internWords (sentence : String) (table : SymbolTable) :
    List Symbol × SymbolTable :=
  internList ((Text.words sentence.toList).map String.ofList) table

def name? (table : SymbolTable) (symbol : Symbol) : Option String :=
  table.names[symbol.id]?

/-- The name of a symbol that is expected to belong to the table. -/
def name (table : SymbolTable) (symbol : Symbol) : Except UsageError String :=
  match table.name? symbol with
  | some name => .ok name
  | none => .error .foreignSymbol

/-- The name of a symbol, or its number after a `#` if it has none. -/
def text (table : SymbolTable) (symbol : Symbol) : String :=
  (table.name? symbol).getD ("#" ++ toString symbol.id)

def size (table : SymbolTable) : Nat := table.names.size

def toList (table : SymbolTable) : List (Symbol × String) :=
  table.names.toList.zipIdx.map fun (name, id) => (⟨id⟩, name)

end SymbolTable

end WeightedParsing
