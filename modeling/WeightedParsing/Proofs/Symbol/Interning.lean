import Mathlib
import WeightedParsing.Proofs.Symbol
import WeightedParsing.Proofs.Text.Words

/-!
# Symbols of thirty-two bits

A symbol table may keep its symbols in words of thirty-two bits, cutting the length of the
table off to that size when it gives out a new one.  As long as there are fewer names than
such words nothing is cut off, and the table and the one with unbounded numbers agree.

Interning then is a stable bijection: the symbols in use are the numbers below the size of
the table, in the order in which their names first came, and no later call changes one.
-/

namespace WeightedParsing

def Symbol.narrow (symbol : Symbol) : UInt32 := UInt32.ofNat symbol.id

structure NarrowTable where
  names : Array String
  ids : Std.HashMap String UInt32

/-- A call that interns names. -/
inductive InternCall where
  | intern (name : String)
  | internWords (sentence : String)

def InternCall.names : InternCall → List String
  | intern name => [name]
  | internWords sentence => (Text.words sentence.toList).map String.ofList

namespace NarrowTable

def empty : NarrowTable := ⟨#[], ∅⟩

def get? (table : NarrowTable) (name : String) : Option UInt32 := table.ids[name]?

def intern (name : String) (table : NarrowTable) : UInt32 × NarrowTable :=
  match table.get? name with
  | some id => (id, table)
  | none =>
      let id := UInt32.ofNat table.names.size
      (id, ⟨table.names.push name, table.ids.insert name id⟩)

def internList : List String → NarrowTable → List UInt32 × NarrowTable
  | [], table => ([], table)
  | name :: rest, table =>
      let (id, table) := table.intern name
      let (ids, table) := internList rest table
      (id :: ids, table)

def internWords (sentence : String) (table : NarrowTable) : List UInt32 × NarrowTable :=
  internList ((Text.words sentence.toList).map String.ofList) table

def name (table : NarrowTable) (id : UInt32) : Except UsageError String :=
  match table.names[id.toNat]? with
  | some name => .ok name
  | none => .error .foreignSymbol

def perform (table : NarrowTable) : InternCall → List UInt32 × NarrowTable
  | .intern name =>
      let (id, table) := table.intern name
      ([id], table)
  | .internWords sentence => table.internWords sentence

/-- The symbols that the calls return, call by call, and the table after them. -/
def performAll (table : NarrowTable) :
    List InternCall → List (List UInt32) × NarrowTable
  | [] => ([], table)
  | call :: rest =>
      let (ids, table) := table.perform call
      let (others, table) := table.performAll rest
      (ids :: others, table)

end NarrowTable

namespace SymbolTable

def perform (table : SymbolTable) : InternCall → List Symbol × SymbolTable
  | .intern name =>
      let (symbol, table) := table.intern name
      ([symbol], table)
  | .internWords sentence => table.internWords sentence

def performAll (table : SymbolTable) :
    List InternCall → List (List Symbol) × SymbolTable
  | [] => ([], table)
  | call :: rest =>
      let (symbols, table) := table.perform call
      let (others, table) := table.performAll rest
      (symbols :: others, table)

theorem perform_eq (table : SymbolTable) (call : InternCall) :
    table.perform call = internList call.names table := by
  cases call with
  | intern name => rfl
  | internWords sentence => rfl

theorem Numbers.performAll {table : SymbolTable} {seen : List String} (h : table.Numbers seen)
    (calls : List InternCall) :
    (table.performAll calls).2.Numbers (seen ++ calls.flatMap InternCall.names) := by
  induction calls generalizing table seen with
  | nil => rwa [List.flatMap_nil, List.append_nil]
  | cons call rest ih =>
      have hcall := h.internList call.names
      rw [← perform_eq] at hcall
      have hrest := ih hcall
      rwa [List.append_assoc] at hrest

end SymbolTable

/-! ## Later calls keep what there is -/

namespace NarrowTable

/-- A table looks up at least what another one looks up, in both directions. -/
structure Keeps (larger table : NarrowTable) : Prop where
  get? : ∀ name id, table.get? name = some id → larger.get? name = some id
  name : ∀ id name, table.name id = .ok name → larger.name id = .ok name

theorem Keeps.refl (table : NarrowTable) : table.Keeps table :=
  ⟨fun _ _ h => h, fun _ _ h => h⟩

theorem Keeps.trans {larger table smaller : NarrowTable} (h : larger.Keeps table)
    (h' : table.Keeps smaller) : larger.Keeps smaller where
  get? := fun name id hid => h.get? name id (h'.get? name id hid)
  name := fun id name hname => h.name id name (h'.name id name hname)

theorem name_eq_ok_iff {table : NarrowTable} {id : UInt32} {name : String} :
    table.name id = .ok name ↔ table.names[id.toNat]? = some name := by
  unfold NarrowTable.name
  split
  · rename_i hname
    simp [hname]
  · rename_i hnone
    simp [hnone]

theorem intern_of_get? {table : NarrowTable} {name : String} {id : UInt32}
    (h : table.get? name = some id) : table.intern name = (id, table) := by
  rw [intern, h]

theorem intern_of_new {table : NarrowTable} {name : String} (h : table.get? name = none) :
    table.intern name =
      (UInt32.ofNat table.names.size, ⟨table.names.push name,
        table.ids.insert name (UInt32.ofNat table.names.size)⟩) := by
  rw [intern, h]

variable (table : NarrowTable)

theorem get?_intern (name : String) :
    (table.intern name).2.get? name = some (table.intern name).1 := by
  cases hname : table.get? name with
  | some id => rw [intern_of_get? hname, hname]
  | none =>
      rw [intern_of_new hname]
      exact Std.HashMap.getElem?_insert_self

theorem keeps_intern (name : String) : (table.intern name).2.Keeps table := by
  cases hname : table.get? name with
  | some id =>
      rw [intern_of_get? hname]
      exact .refl table
  | none =>
      rw [intern_of_new hname]
      constructor
      · intro other id hother
        have hne : name ≠ other := by
          rintro rfl
          rw [hname] at hother
          contradiction
        simp only [get?] at hother ⊢
        rw [Std.HashMap.getElem?_insert, if_neg (by simpa using hne), hother]
      · intro id other hother
        rw [name_eq_ok_iff] at hother ⊢
        have hid : id.toNat < table.names.size := (Array.getElem?_eq_some_iff.mp hother).1
        rw [← hother]
        exact (Array.getElem?_push_lt hid).trans (Array.getElem?_eq_getElem hid).symm

theorem internList_cons (name : String) (rest : List String) :
    internList (name :: rest) table =
      ((table.intern name).1 :: (internList rest (table.intern name).2).1,
        (internList rest (table.intern name).2).2) := rfl

/-- Interning gives the symbols that the names have from then on. -/
theorem get?_internList (names : List String) (table : NarrowTable) :
    List.Forall₂ (fun name id => (internList names table).2.get? name = some id) names
        (internList names table).1 ∧
      (internList names table).2.Keeps table := by
  induction names generalizing table with
  | nil => exact ⟨.nil, .refl table⟩
  | cons name rest ih =>
      obtain ⟨hrest, hkeeps⟩ := ih (table.intern name).2
      refine ⟨.cons ?_ hrest, hkeeps.trans (table.keeps_intern name)⟩
      exact hkeeps.get? name _ (table.get?_intern name)

/-- Names that have symbols are interned again without a change. -/
theorem internList_of_get? {names : List String} {ids : List UInt32}
    (h : List.Forall₂ (fun name id => table.get? name = some id) names ids) :
    internList names table = (ids, table) := by
  induction h with
  | nil => rfl
  | @cons name id names ids hname _ ih =>
      rw [internList_cons, intern_of_get? hname, ih]

theorem internList_append (before after : List String) :
    internList (before ++ after) table =
      ((internList before table).1 ++ (internList after (internList before table).2).1,
        (internList after (internList before table).2).2) := by
  induction before generalizing table with
  | nil => rfl
  | cons name rest ih =>
      rw [List.cons_append, internList_cons, ih]
      rfl

theorem perform_eq (call : InternCall) : table.perform call = internList call.names table := by
  cases call with
  | intern name => rfl
  | internWords sentence => rfl

theorem performAll_eq (calls : List InternCall) :
    ((table.performAll calls).1.flatten, (table.performAll calls).2) =
      internList (calls.flatMap InternCall.names) table := by
  induction calls generalizing table with
  | nil => rfl
  | cons call rest ih =>
      rw [List.flatMap_cons, internList_append, ← perform_eq, ← ih]
      rfl

theorem keeps_performAll (calls : List InternCall) :
    (table.performAll calls).2.Keeps table := by
  have hkeeps := (get?_internList (calls.flatMap InternCall.names) table).2
  rwa [← performAll_eq] at hkeeps

theorem performAll_append (before after : List InternCall) :
    (table.performAll (before ++ after)).2 =
      ((table.performAll before).2.performAll after).2 := by
  have hall := congrArg Prod.snd (table.performAll_eq (before ++ after))
  rw [List.flatMap_append, internList_append, ← performAll_eq, ← performAll_eq] at hall
  exact hall

/-- A call that was made before returns the same symbols again and changes nothing. -/
theorem perform_repeated (before : List InternCall) (call : InternCall)
    (after : List InternCall) :
    (table.performAll (before ++ call :: after)).2.perform call =
      (((table.performAll before).2.perform call).1,
        (table.performAll (before ++ call :: after)).2) := by
  have hget := (get?_internList call.names (table.performAll before).2).1
  rw [← perform_eq] at hget
  rw [performAll_append, perform_eq]
  apply internList_of_get?
  exact hget.imp (keeps_performAll _ after).get?

theorem performAll_cons (call : InternCall) (rest : List InternCall) :
    table.performAll (call :: rest) =
      ((table.perform call).1 :: ((table.perform call).2.performAll rest).1,
        ((table.perform call).2.performAll rest).2) := rfl

theorem performAll_intern (names : List String) :
    table.performAll (names.map .intern) =
      ((internList names table).1.map fun id => [id], (internList names table).2) := by
  induction names generalizing table with
  | nil => rfl
  | cons name rest ih =>
      rw [List.map_cons, performAll_cons, ih]
      rfl

/-- The words of a sentence are interned one after the other. -/
theorem internWords_eq (sentence : String) (words : List (List Char))
    (hwords : Text.Separated sentence.toList words) :
    table.performAll (words.map fun word => .intern (String.ofList word)) =
      ((table.internWords sentence).1.map fun id => [id],
        (table.internWords sentence).2) := by
  have hmap : (words.map fun word => InternCall.intern (String.ofList word)) =
      (words.map String.ofList).map .intern := by
    rw [List.map_map]
    rfl
  rw [hmap, performAll_intern, internWords, Text.words_eq_iff.mpr hwords]

end NarrowTable

/-! ## The table with unbounded numbers -/

namespace NarrowTable

/-- A table has the symbols of another one, cut off to thirty-two bits. -/
structure Narrows (narrow : NarrowTable) (table : SymbolTable) : Prop where
  names_eq : narrow.names = table.names
  get?_eq : ∀ name, narrow.get? name = (table.get? name).map Symbol.narrow

theorem narrows_empty : empty.Narrows .empty where
  names_eq := rfl
  get?_eq := by simp [empty, get?, SymbolTable.empty, SymbolTable.get?]

variable {narrow : NarrowTable} {table : SymbolTable}

theorem Narrows.intern (h : narrow.Narrows table) (name : String) :
    (narrow.intern name).1 = (table.intern name).1.narrow ∧
      (narrow.intern name).2.Narrows (table.intern name).2 := by
  have hname := h.get?_eq name
  unfold SymbolTable.intern
  cases htable : table.get? name with
  | some symbol =>
      rw [htable] at hname
      rw [intern_of_get? hname]
      exact ⟨rfl, h⟩
  | none =>
      rw [htable] at hname
      rw [intern_of_new hname, h.names_eq]
      refine ⟨rfl, rfl, ?_⟩
      intro other
      have hother := h.get?_eq other
      simp only [get?, SymbolTable.get?, Std.HashMap.getElem?_insert] at hother ⊢
      split
      · rfl
      · exact hother

theorem Narrows.internList (h : narrow.Narrows table) (names : List String) :
    (NarrowTable.internList names narrow).1 =
        (SymbolTable.internList names table).1.map Symbol.narrow ∧
      (NarrowTable.internList names narrow).2.Narrows (SymbolTable.internList names table).2 := by
  induction names generalizing narrow table with
  | nil => exact ⟨rfl, h⟩
  | cons name rest ih =>
      obtain ⟨hfirst, hafter⟩ := h.intern name
      obtain ⟨hrest, hfinal⟩ := ih hafter
      refine ⟨?_, hfinal⟩
      rw [NarrowTable.internList, SymbolTable.internList, List.map_cons, ← hrest, ← hfirst]

theorem Narrows.performAll (h : narrow.Narrows table) (calls : List InternCall) :
    (narrow.performAll calls).1 =
        (table.performAll calls).1.map (List.map Symbol.narrow) ∧
      (narrow.performAll calls).2.Narrows (table.performAll calls).2 := by
  induction calls generalizing narrow table with
  | nil => exact ⟨rfl, h⟩
  | cons call rest ih =>
      have hcall := h.internList call.names
      rw [← perform_eq, ← table.perform_eq] at hcall
      obtain ⟨hrest, hfinal⟩ := ih hcall.2
      refine ⟨?_, hfinal⟩
      rw [NarrowTable.performAll, SymbolTable.performAll, List.map_cons, ← hrest, ← hcall.1]

end NarrowTable

/-! ## Tables that number their names -/

namespace NarrowTable

variable {narrow : NarrowTable} {table : SymbolTable} {seen : List String}

/-- Nothing is cut off the symbols of a table that is not too large. -/
theorem Narrows.get?_eq_some_iff (h : narrow.Narrows table) (hnumbers : table.Numbers seen)
    (hfew : seen.eraseDups.length < 2 ^ 32) (name : String) (id : UInt32) :
    narrow.get? name = some id ↔ seen.eraseDups[id.toNat]? = some name := by
  rw [h.get?_eq, ← hnumbers.get?_eq_some_iff, Option.map_eq_some_iff]
  constructor
  · rintro ⟨symbol, hsymbol, rfl⟩
    have hplace := (hnumbers.get?_eq_some_iff name symbol.id).mp hsymbol
    have hid := (List.getElem?_eq_some_iff.mp hplace).1
    rw [Symbol.narrow, UInt32.toNat_ofNat', Nat.mod_eq_of_lt (by omega)]
    exact hsymbol
  · intro hsymbol
    exact ⟨_, hsymbol, UInt32.ofNat_toNat⟩

/-- The symbols of a table are those of some names, numbered in the order in which they
first come. -/
structure IsBijection (table : NarrowTable) (seen : List String) : Prop where
  names_eq : table.names.toList = seen.eraseDups
  get?_iff : ∀ name id, table.get? name = some id ↔ seen.eraseDups[id.toNat]? = some name
  interned_iff : ∀ name, (∃ id, table.get? name = some id) ↔ name ∈ seen
  in_use_iff : ∀ n, (∃ name id, table.get? name = some id ∧ id.toNat = n) ↔
    n < table.names.size
  name_of_get? : ∀ name id, table.get? name = some id → table.name id = .ok name
  get?_of_name : ∀ id name, table.name id = .ok name → table.get? name = some id

theorem Narrows.isBijection (h : narrow.Narrows table) (hnumbers : table.Numbers seen)
    (hfew : seen.eraseDups.length < 2 ^ 32) : narrow.IsBijection seen := by
  have hget := h.get?_eq_some_iff hnumbers hfew
  have hnames : narrow.names.toList = seen.eraseDups := by rw [h.names_eq, hnumbers.names_eq]
  have hname : ∀ id name, narrow.name id = .ok name ↔ narrow.get? name = some id := by
    intro id name
    rw [name_eq_ok_iff, hget, ← hnames, Array.getElem?_toList]
  constructor
  · exact hnames
  · exact hget
  · intro name
    rw [← List.mem_eraseDups, ← hnumbers.names_eq, ← hnumbers.faithful.exists_get?_iff]
    simp only [h.get?_eq, Option.map_eq_some_iff]
    constructor
    · rintro ⟨_, symbol, hsymbol, _⟩
      exact ⟨symbol, hsymbol⟩
    · rintro ⟨symbol, hsymbol⟩
      exact ⟨_, symbol, hsymbol, rfl⟩
  · intro n
    rw [← Array.length_toList, hnames]
    constructor
    · rintro ⟨name, id, hid, rfl⟩
      exact (List.getElem?_eq_some_iff.mp ((hget name id).mp hid)).1
    · intro hn
      have hword : (UInt32.ofNat n).toNat = n := by
        rw [UInt32.toNat_ofNat', Nat.mod_eq_of_lt (by omega)]
      refine ⟨seen.eraseDups[n], UInt32.ofNat n, (hget _ _).mpr ?_, hword⟩
      rw [hword, List.getElem?_eq_getElem hn]
  · exact fun name id => (hname id name).mpr
  · exact fun id name => (hname id name).mp

theorem IsBijection.eq_iff {names : List String} (h : narrow.IsBijection seen)
    {ids : List UInt32}
    (hids : List.Forall₂ (fun name id => narrow.get? name = some id) names ids) :
    ∀ a ∈ names.zip ids, ∀ b ∈ names.zip ids, a.2 = b.2 ↔ a.1 = b.1 := by
  have hzip : ∀ a ∈ names.zip ids, narrow.get? a.1 = some a.2 := by
    intro a ha
    exact List.forall₂_zip hids ha
  intro a ha b hb
  constructor
  · intro heq
    have hname := h.name_of_get? _ _ (hzip a ha)
    rw [heq, h.name_of_get? _ _ (hzip b hb)] at hname
    exact (Except.ok.inj hname).symm
  · intro heq
    have hid := hzip a ha
    rw [heq, hzip b hb] at hid
    exact (Option.some.inj hid).symm

/-- What a table has become by some calls, and what any further call finds. -/
structure IsInterned (table : NarrowTable) (calls : List InternCall)
    (returned : List (List UInt32)) : Prop where
  bijection : table.IsBijection (calls.flatMap InternCall.names)
  get?_returned : List.Forall₂ (fun name id => table.get? name = some id)
    (calls.flatMap InternCall.names) returned.flatten
  returned_eq_iff : ∀ a ∈ (calls.flatMap InternCall.names).zip returned.flatten,
    ∀ b ∈ (calls.flatMap InternCall.names).zip returned.flatten, a.2 = b.2 ↔ a.1 = b.1
  stable : ∀ later, (table.performAll later).2.Keeps table
  internWords_eq : ∀ sentence words, Text.Separated sentence.toList words →
    table.performAll (words.map fun word => .intern (String.ofList word)) =
      ((table.internWords sentence).1.map fun id => [id], (table.internWords sentence).2)
  repeated : ∀ before call after, calls = before ++ call :: after →
    table.perform call = (((empty.performAll before).2.perform call).1, table)

/-- Interning fewer names than there are words of thirty-two bits gives a stable
bijection between the names and the numbers below the size of the table, and it gives the
symbols that the table with unbounded numbers does. -/
theorem interning_is_stable_bijection (calls : List InternCall)
    (hfew : (calls.flatMap InternCall.names).eraseDups.length < 2 ^ 32) :
    ∃ returned table, empty.performAll calls = (returned, table) ∧
      returned = (SymbolTable.empty.performAll calls).1.map (List.map Symbol.narrow) ∧
      table.Narrows (SymbolTable.empty.performAll calls).2 ∧
      table.IsInterned calls returned := by
  have hnumbers := SymbolTable.numbers_empty.performAll calls
  obtain ⟨hreturned, hnarrows⟩ := narrows_empty.performAll calls
  have hbijection := hnarrows.isBijection hnumbers hfew
  have hget := (get?_internList (calls.flatMap InternCall.names) empty).1
  rw [← performAll_eq] at hget
  refine ⟨_, _, rfl, hreturned, hnarrows, hbijection, hget, hbijection.eq_iff hget,
    keeps_performAll _, internWords_eq _, ?_⟩
  rintro before call after rfl
  exact perform_repeated empty before call after

/-- Of the five names three are distinct: the sentence gives its second word the number that
the word has already. -/
theorem interning_is_stable_bijection_repeated_word :
    ([InternCall.intern "a", .internWords " b a  c b"].flatMap
        InternCall.names).eraseDups.length < 2 ^ 32 ∧
      ∃ returned table,
        empty.performAll [.intern "a", .internWords " b a  c b"] = (returned, table) ∧
          returned.flatten = [0, 1, 0, 2, 1] ∧ table.names.toList = ["a", "b", "c"] ∧
          table.IsInterned [.intern "a", .internWords " b a  c b"] returned := by
  have hnames : [InternCall.intern "a", .internWords " b a  c b"].flatMap InternCall.names =
      ["a", "b", "a", "c", "b"] := by decide +kernel
  have hdistinct : ["a", "b", "a", "c", "b"].eraseDups = ["a", "b", "c"] := by decide +kernel
  have hfew : ([InternCall.intern "a", .internWords " b a  c b"].flatMap
      InternCall.names).eraseDups.length < 2 ^ 32 := by
    rw [hnames, hdistinct]
    decide
  obtain ⟨returned, table, hperform, _, _, hinterned⟩ := interning_is_stable_bijection _ hfew
  have hbijection := hinterned.bijection
  have hreturned := hinterned.get?_returned
  rw [hnames] at hbijection hreturned
  have hget : ∀ name id, ["a", "b", "c"][id.toNat]? = some name →
      table.get? name = some id := by
    intro name id hid
    rw [← hdistinct] at hid
    exact (hbijection.get?_iff name id).mpr hid
  have hunique : Relator.RightUnique fun name id => table.get? name = some id :=
    fun _ _ _ h h' => Option.some.inj (h.symm.trans h')
  refine ⟨hfew, returned, table, hperform, hunique.forall₂ hreturned ?_, ?_, hinterned⟩
  · exact .cons (hget _ 0 rfl) (.cons (hget _ 1 rfl) (.cons (hget _ 0 rfl)
      (.cons (hget _ 2 rfl) (.cons (hget _ 1 rfl) .nil))))
  · rw [hbijection.names_eq, hdistinct]

end NarrowTable

end WeightedParsing
