/-!
# Tables in order of insertion

A finite table with distinct keys whose entries stand in the order in which
their keys first came.  Changing an entry keeps its place.
-/

namespace WeightedParsing

variable {κ α β : Type}

/-- A finite table whose entries keep the order of their first insertion. -/
structure OrderedTable (κ α : Type) where
  entries : List (κ × α)
  nodup_keys : (entries.map Prod.fst).Nodup

namespace OrderedTable

/-- Changes the entry of `key` by `f`; a missing entry is appended as `f none`. -/
def updateEntries [DecidableEq κ] (key : κ) (f : Option α → α) :
    List (κ × α) → List (κ × α)
  | [] => [(key, f none)]
  | (k, a) :: rest =>
      if k = key then (k, f (some a)) :: rest
      else (k, a) :: updateEntries key f rest

theorem mem_keys_updateEntries [DecidableEq κ] {key k : κ} {f : Option α → α} :
    ∀ {entries : List (κ × α)},
      k ∈ (updateEntries key f entries).map Prod.fst →
        k = key ∨ k ∈ entries.map Prod.fst
  | [], h => by simpa [updateEntries] using h
  | (k', a) :: rest, h => by
      simp only [updateEntries] at h
      split at h
      · exact .inr (by simpa using h)
      · rw [List.map_cons, List.mem_cons] at h
        rcases h with h | h
        · exact .inr (by simp [h])
        · rcases mem_keys_updateEntries h with h | h
          · exact .inl h
          · exact .inr (List.mem_cons_of_mem _ h)

theorem nodup_keys_updateEntries [DecidableEq κ] {key : κ} {f : Option α → α} :
    ∀ {entries : List (κ × α)}, (entries.map Prod.fst).Nodup →
      ((updateEntries key f entries).map Prod.fst).Nodup
  | [], _ => by simp [updateEntries]
  | (k, a) :: rest, h => by
      simp only [updateEntries]
      rw [List.map_cons, List.nodup_cons] at h
      split
      · simpa using h
      · rename_i hne
        rw [List.map_cons, List.nodup_cons]
        refine ⟨fun hmem => ?_, nodup_keys_updateEntries h.2⟩
        rcases mem_keys_updateEntries hmem with hk | hk
        · exact hne hk
        · exact h.1 hk

def empty : OrderedTable κ α := ⟨[], List.nodup_nil⟩

instance : EmptyCollection (OrderedTable κ α) := ⟨empty⟩

instance : Inhabited (OrderedTable κ α) := ⟨empty⟩

def get? [DecidableEq κ] (table : OrderedTable κ α) (key : κ) : Option α :=
  (table.entries.find? fun entry => entry.1 = key).map Prod.snd

def update [DecidableEq κ] (table : OrderedTable κ α) (key : κ)
    (f : Option α → α) : OrderedTable κ α :=
  ⟨updateEntries key f table.entries, nodup_keys_updateEntries table.nodup_keys⟩

def insert [DecidableEq κ] (table : OrderedTable κ α) (key : κ) (value : α) :
    OrderedTable κ α :=
  table.update key fun _ => value

/-- The table of a list of entries, where a later entry replaces an earlier one
of the same key. -/
def ofList [DecidableEq κ] (entries : List (κ × α)) : OrderedTable κ α :=
  entries.foldl (fun table entry => table.insert entry.1 entry.2) empty

def mapValues (f : α → β) (table : OrderedTable κ α) : OrderedTable κ β :=
  ⟨table.entries.map fun entry => (entry.1, f entry.2), by
    simpa [List.map_map, Function.comp_def] using table.nodup_keys⟩

def keys (table : OrderedTable κ α) : List κ := table.entries.map Prod.fst

def size (table : OrderedTable κ α) : Nat := table.entries.length

def isEmpty (table : OrderedTable κ α) : Bool := table.entries.isEmpty

theorem find?_updateEntries_self [DecidableEq κ] {key : κ} {f : Option α → α} :
    ∀ entries : List (κ × α),
      ((updateEntries key f entries).find? fun entry => entry.1 = key) =
        some (key, f ((entries.find? fun entry => entry.1 = key).map Prod.snd))
  | [] => by simp [updateEntries]
  | (k, a) :: rest => by
      by_cases h : k = key
      · simp [updateEntries, h]
      · simp [updateEntries, h, find?_updateEntries_self rest]

theorem find?_updateEntries_of_ne [DecidableEq κ] {key k : κ} (hne : k ≠ key)
    {f : Option α → α} :
    ∀ entries : List (κ × α),
      ((updateEntries key f entries).find? fun entry => entry.1 = k) =
        entries.find? fun entry => entry.1 = k
  | [] => by simp [updateEntries, Ne.symm hne]
  | (k', a) :: rest => by
      by_cases h : k' = key
      · subst h
        simp [updateEntries, Ne.symm hne]
      · by_cases hk : k' = k
        · subst hk
          simp [updateEntries, h]
        · simp [updateEntries, h, hk,
            find?_updateEntries_of_ne hne rest]

@[simp] theorem get?_empty [DecidableEq κ] (key : κ) :
    (empty : OrderedTable κ α).get? key = none := rfl

@[simp] theorem get?_update_self [DecidableEq κ] (table : OrderedTable κ α)
    (key : κ) (f : Option α → α) :
    (table.update key f).get? key = some (f (table.get? key)) := by
  simp [get?, update, find?_updateEntries_self]

theorem get?_update_of_ne [DecidableEq κ] (table : OrderedTable κ α)
    {key k : κ} (hne : k ≠ key) (f : Option α → α) :
    (table.update key f).get? k = table.get? k := by
  simp [get?, update, find?_updateEntries_of_ne hne]

end OrderedTable

end WeightedParsing
