import Std.Data.HashMap.Lemmas
import WeightedParsing.Proofs.Distinct
import WeightedParsing.Symbol

/-!
# Symbol tables keep names and numbers together

In a table that was built by interning, a name leads to a symbol exactly if the symbol
leads to the name.  Interning names adds some at the end of the table and changes
nothing about the others, so the names are numbered in the order in which they first
come.
-/

namespace WeightedParsing

theorem Symbol.mem_sortDistinct {symbols : List Symbol} {x : Symbol} :
    x ∈ Symbol.sortDistinct symbols ↔ x ∈ symbols := by
  rw [sortDistinct, List.mem_mergeSort, List.mem_eraseDups]

theorem Symbol.nodup_sortDistinct (symbols : List Symbol) :
    (Symbol.sortDistinct symbols).Nodup :=
  (List.mergeSort_perm _ _).nodup_iff.mpr (nodup_eraseDups symbols)

namespace SymbolTable

/-- Looking up names and looking up symbols are inverse to each other. -/
def Faithful (table : SymbolTable) : Prop :=
  ∀ name symbol, table.get? name = some symbol ↔ table.name? symbol = some name

def Extends (larger table : SymbolTable) : Prop :=
  table.names.toList <+: larger.names.toList

def Names (table : SymbolTable) (symbol : Symbol) (name : String) : Prop :=
  table.name? symbol = some name

theorem rightUnique_names (table : SymbolTable) : Relator.RightUnique table.Names :=
  fun _ _ _ h h' => Option.some.inj (h.symm.trans h')

theorem Faithful.leftUnique_names {table : SymbolTable} (h : table.Faithful) :
    Relator.LeftUnique table.Names := by
  intro a b name ha hb
  exact Option.some.inj (((h name a).mpr ha).symm.trans ((h name b).mpr hb))

theorem faithful_empty : empty.Faithful := by
  intro name symbol
  simp [empty, get?, name?]

theorem Extends.refl (table : SymbolTable) : table.Extends table := List.prefix_rfl

theorem Extends.trans {larger table smaller : SymbolTable} (h : larger.Extends table)
    (h' : table.Extends smaller) : larger.Extends smaller := List.IsPrefix.trans h' h

theorem Extends.names {larger table : SymbolTable} (h : larger.Extends table)
    {symbol : Symbol} {name : String} (hname : table.Names symbol name) :
    larger.Names symbol name := by
  obtain ⟨added, hadded⟩ := h
  rw [Names, SymbolTable.name?, ← Array.getElem?_toList] at hname ⊢
  rw [← hadded]
  exact List.getElem?_append_left (List.getElem?_eq_some_iff.mp hname).1 ▸ hname

theorem Extends.names_option {larger table : SymbolTable} (h : larger.Extends table)
    {symbol : Option Symbol} {name : Option String}
    (hname : Option.Rel table.Names symbol name) : Option.Rel larger.Names symbol name := by
  cases hname with
  | some hname => exact .some (h.names hname)
  | none => exact .none

/-! ## Interning -/

/-- What interning a name leaves: a faithful table that names the result. -/
structure Interned (before : SymbolTable) (name : String)
    (result : Symbol × SymbolTable) : Prop where
  faithful : result.2.Faithful
  larger : result.2.Extends before
  names : result.2.Names result.1 name

theorem Faithful.push {table : SymbolTable} (h : table.Faithful) {name : String}
    (hnew : table.get? name = none) :
    Faithful ⟨table.names.push name, table.ids.insert name ⟨table.names.size⟩⟩ := by
  intro other symbol
  have hother := h other symbol
  have hfree := h name symbol
  simp only [get?, name?, Std.HashMap.getElem?_insert, Array.getElem?_push, beq_iff_eq]
    at hnew hother hfree ⊢
  by_cases hname : name = other
  · subst hname
    rw [if_pos rfl]
    constructor
    · intro hsymbol
      rw [← Option.some.inj hsymbol, if_pos rfl]
    · intro hsymbol
      split at hsymbol
      · rename_i hlast
        rw [← hlast]
      · rw [hfree.mpr hsymbol] at hnew
        contradiction
  · rw [if_neg hname, hother]
    constructor
    · intro hsymbol
      have hbound : symbol.id < table.names.size := by
        rw [Array.getElem?_eq_some_iff] at hsymbol
        exact hsymbol.1
      rw [if_neg (by omega)]
      exact hsymbol
    · intro hsymbol
      split at hsymbol
      · exact absurd (Option.some.inj hsymbol) hname
      · exact hsymbol

theorem Faithful.intern {table : SymbolTable} (h : table.Faithful) (name : String) :
    Interned table name (table.intern name) := by
  unfold SymbolTable.intern
  cases hname : table.get? name with
  | some symbol => exact ⟨h, .refl table, (h name symbol).mp hname⟩
  | none =>
      refine ⟨h.push hname, ?_, ?_⟩
      · simp [Extends]
      · simp [Names, name?]

theorem Faithful.internList {table : SymbolTable} (h : table.Faithful)
    (names : List String) :
    (SymbolTable.internList names table).2.Faithful ∧
      (SymbolTable.internList names table).2.Extends table ∧
      List.Forall₂ (SymbolTable.internList names table).2.Names
        (SymbolTable.internList names table).1 names := by
  induction names generalizing table with
  | nil => exact ⟨h, .refl table, .nil⟩
  | cons name rest ih =>
      have hfirst := h.intern name
      obtain ⟨hfaithful, hlarger, hnames⟩ := ih hfirst.faithful
      exact ⟨hfaithful, hlarger.trans hfirst.larger,
        .cons (hlarger.names hfirst.names) hnames⟩

/-! ## Numbers by first occurrence -/

/-- Whether a table has the given names, numbered in the order in which they first come. -/
structure Numbers (table : SymbolTable) (seen : List String) : Prop where
  faithful : table.Faithful
  names_eq : table.names.toList = seen.eraseDups

theorem numbers_empty : empty.Numbers [] := ⟨faithful_empty, rfl⟩

theorem Faithful.exists_get?_iff {table : SymbolTable} (h : table.Faithful) {name : String} :
    (∃ symbol, table.get? name = some symbol) ↔ name ∈ table.names.toList := by
  rw [List.mem_iff_getElem?]
  constructor
  · rintro ⟨symbol, hsymbol⟩
    refine ⟨symbol.id, ?_⟩
    rw [Array.getElem?_toList]
    exact (h name symbol).mp hsymbol
  · rintro ⟨id, hid⟩
    refine ⟨⟨id⟩, (h name ⟨id⟩).mpr ?_⟩
    rwa [Array.getElem?_toList] at hid

theorem Numbers.intern {table : SymbolTable} {seen : List String} (h : table.Numbers seen)
    (name : String) : (table.intern name).2.Numbers (seen ++ [name]) := by
  refine ⟨(h.faithful.intern name).faithful, ?_⟩
  have hmem : name ∈ seen ↔ ∃ symbol, table.get? name = some symbol := by
    rw [h.faithful.exists_get?_iff, h.names_eq, List.mem_eraseDups]
  rw [eraseDups_concat, ← h.names_eq]
  unfold SymbolTable.intern
  cases hname : table.get? name with
  | some symbol =>
      rw [if_pos (hmem.mpr ⟨symbol, hname⟩)]
  | none =>
      rw [if_neg (by simp [hmem, hname])]
      exact Array.toList_push

theorem Numbers.internList {table : SymbolTable} {seen : List String}
    (h : table.Numbers seen) (names : List String) :
    (SymbolTable.internList names table).2.Numbers (seen ++ names) := by
  induction names generalizing table seen with
  | nil => rwa [List.append_nil]
  | cons name rest ih =>
      have hrest := ih (h.intern name)
      rwa [List.append_assoc, List.singleton_append] at hrest

/-- A name has a number if and only if it is among the names, and then the place at which
it first comes there. -/
theorem Numbers.get?_eq_some_iff {table : SymbolTable} {seen : List String}
    (h : table.Numbers seen) (name : String) (id : Nat) :
    table.get? name = some ⟨id⟩ ↔ seen.eraseDups[id]? = some name := by
  rw [h.faithful, ← h.names_eq, Array.getElem?_toList, name?]

/-! ## Written names -/

theorem Names.text_eq {table : SymbolTable} {symbol : Symbol} {name : String}
    (h : table.Names symbol name) : table.text symbol = name := by
  rw [text, show table.name? symbol = some name from h, Option.getD_some]

end SymbolTable

end WeightedParsing
