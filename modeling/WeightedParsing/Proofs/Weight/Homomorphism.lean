import WeightedParsing.Model
import WeightedParsing.Proofs.Weight.Order
import WeightedParsing.Proofs.Weight.Tables

/-!
# Homomorphisms of weights

The same weights may be stored in two ways, as themselves or by their logarithms.  A
map between two algebras that commutes with their operations and loses no weight to
zero carries tables of weights over, entry by entry.
-/

namespace WeightedParsing

/-- The zero test recognises zero and nothing else. -/
class ExactZero (K : outParam Type) (S : Type) [WeightAlgebra K S] : Prop where
  isZero_iff : ∀ a : S, WeightAlgebra.isZero a = true ↔ a = 0

instance {K S : Type} [WeightAlgebra K S] [LawfulWeights K S] : ExactZero K S where
  isZero_iff := LawfulWeights.isZero_iff

/-- A map between algebras that commutes with sums, products and the weights of rules,
and that takes nothing but zero to zero. -/
structure WeightHom {K S T : Type} [Scalar K] [WeightAlgebra K S] [WeightAlgebra K T]
    (h : S → T) : Prop where
  map_zero : h 0 = 0
  map_one : h 1 = 1
  map_add : ∀ a b, h (a + b) = h a + h b
  map_mul : ∀ a b, h (a * b) = h a * h b
  map_ofWeight : ∀ w : K, Ranked.le 0 w = true →
    h (WeightAlgebra.ofWeight w) = WeightAlgebra.ofWeight w
  eq_zero : ∀ a, h a = 0 → a = 0
  selective_eq : WeightAlgebra.selective S = WeightAlgebra.selective T

/-- No rule weighs less than nothing. -/
def Model.Nonneg {K : Type} [Scalar K] (model : Model K) : Prop :=
  ∀ rule, Ranked.le 0 (model.ruleWeight rule) = true

/-- Every rule weight is read back as it was put in. -/
def Model.IsRead (S : Type) [WeightAlgebra K S] (model : Model K) : Prop :=
  ∀ rule, WeightAlgebra.toWeight (model.weigh rule : S) = model.ruleWeight rule

/-- No root weighs less than nothing. -/
def RootPrior.Nonneg {K : Type} [Scalar K] : RootPrior K → Prop
  | uniform => True
  | point _ => True
  | weighted weights => ∀ root, Ranked.le 0 ((weights.get? root).getD 0) = true

namespace OrderedTable

variable {κ α β : Type}

theorem mapValues_mapValues {γ : Type} (g : α → β) (g' : β → γ)
    (table : OrderedTable κ α) :
    (table.mapValues g).mapValues g' = table.mapValues fun a => g' (g a) := by
  simp only [mapValues, List.map_map, Function.comp_def]

variable [DecidableEq κ]

theorem map_updateEntries (g : α → β) (key : κ) {f : Option α → α}
    {f' : Option β → β} (hf : ∀ old, f' (old.map g) = g (f old))
    (entries : List (κ × α)) :
    updateEntries key f' (entries.map fun entry => (entry.1, g entry.2)) =
      (updateEntries key f entries).map fun entry => (entry.1, g entry.2) := by
  induction entries with
  | nil => simpa [updateEntries] using hf none
  | cons entry rest ih =>
      by_cases hkey : entry.1 = key
      · simpa [updateEntries, hkey] using hf (some entry.2)
      · simpa [updateEntries, hkey] using ih

theorem update_mapValues (g : α → β) (table : OrderedTable κ α) (key : κ)
    {f : Option α → α} {f' : Option β → β} (hf : ∀ old, f' (old.map g) = g (f old)) :
    (table.mapValues g).update key f' = (table.update key f).mapValues g := by
  simp only [update, mapValues, mk.injEq]
  exact map_updateEntries g key hf table.entries

end OrderedTable

/-- The image of the weights under a map; the same symbols have entries. -/
def SymbolWeights.map {S T : Type} (h : S → T) (weights : SymbolWeights S) :
    SymbolWeights T :=
  ⟨weights.table.mapValues h⟩

section Images

variable {K S T : Type} [Scalar K] [WeightAlgebra K S] [WeightAlgebra K T]
  {h : S → T}

namespace WeightHom

theorem isZero_map [ExactZero K S] [ExactZero K T] (hom : WeightHom h) (a : S) :
    WeightAlgebra.isZero (h a) = WeightAlgebra.isZero a := by
  rw [Bool.eq_iff_iff, ExactZero.isZero_iff, ExactZero.isZero_iff]
  constructor
  · exact hom.eq_zero a
  · rintro rfl
    exact hom.map_zero

theorem map_weigh (hom : WeightHom h) {model : Model K} (hmodel : model.Nonneg)
    (rule : Rule) : (model.weigh rule : T) = h (model.weigh rule) :=
  (hom.map_ofWeight _ (hmodel rule)).symm

theorem map_prior (hom : WeightHom h) {prior : RootPrior K} (hprior : prior.Nonneg)
    (root : Symbol) : (prior.weight root : T) = h (prior.weight root) := by
  cases prior with
  | uniform => exact hom.map_one.symm
  | point symbol =>
      change (if symbol = root then 1 else 0) = h (if symbol = root then 1 else 0)
      split
      · exact hom.map_one.symm
      · exact hom.map_zero.symm
  | weighted weights => exact (hom.map_ofWeight _ (hprior root)).symm

theorem map_getD (hom : WeightHom h) (old : Option S) :
    (old.map h).getD 0 = h (old.getD 0) := by
  cases old with
  | none => exact hom.map_zero.symm
  | some a => rfl

end WeightHom

namespace SymbolWeights

theorem get_map (hom : WeightHom h) (weights : SymbolWeights S) (symbol : Symbol) :
    (weights.map h).get symbol = h (weights.get symbol) := by
  unfold get map
  rw [OrderedTable.get?_mapValues, hom.map_getD]

theorem entries_map (h : S → T) (weights : SymbolWeights S) :
    (weights.map h).entries = weights.entries.map fun entry => (entry.1, h entry.2) := rfl

theorem symbols_map (h : S → T) (weights : SymbolWeights S) :
    (weights.map h).symbols = weights.symbols := by
  simp [symbols, OrderedTable.keys, map, OrderedTable.mapValues, Function.comp_def]

theorem total_map (hom : WeightHom h) (weights : SymbolWeights S) :
    (weights.map h).total = h weights.total := by
  rw [total, total, entries_map, ← hom.map_zero, List.foldl_map]
  apply List.foldl_hom h
  intro sum entry
  exact (hom.map_add sum entry.2).symm

variable [ExactZero K S] [ExactZero K T]

theorem combine_map (hom : WeightHom h) (weights : SymbolWeights S) (symbol : Symbol)
    (weight : S) :
    (weights.map h).combine symbol (h weight) = (weights.combine symbol weight).map h := by
  unfold combine
  rw [hom.isZero_map]
  split
  · rfl
  · apply congrArg SymbolWeights.mk
    apply OrderedTable.update_mapValues
    intro old
    rw [hom.map_getD, hom.map_add]

theorem combineAll_map (hom : WeightHom h) (weights : SymbolWeights S)
    (entries : List (Symbol × S)) :
    (weights.map h).combineAll (entries.map fun entry => (entry.1, h entry.2)) =
      (weights.combineAll entries).map h := by
  unfold combineAll
  rw [List.foldl_map]
  apply List.foldl_hom (map h)
  intro weights entry
  exact combine_map hom weights entry.1 entry.2

theorem ofList_map (hom : WeightHom h) (entries : List (Symbol × S)) :
    ofList (entries.map fun entry => (entry.1, h entry.2)) = (ofList entries).map h :=
  combineAll_map hom empty entries

theorem restrictTo_map (hom : WeightHom h) {prior : RootPrior K}
    (hprior : prior.Nonneg) (candidates : List Symbol) :
    prior.restrictTo candidates = ((prior.restrictTo candidates : SymbolWeights S)).map h := by
  unfold RootPrior.restrictTo
  rw [← ofList_map hom, List.map_map]
  simp only [hom.map_prior hprior]
  rfl

end SymbolWeights

end Images

/-! ## Increasing maps -/

/-- A map that comparisons do not tell from the identity. -/
structure Ranked.Embeds {W W' : Type} [Ranked W] [Ranked W'] (h : W → W') : Prop where
  lt_map : ∀ a b, Ranked.lt (h a) (h b) = Ranked.lt a b
  le_map : ∀ a b, Ranked.le (h a) (h b) = Ranked.le a b

/-- A map between total orders that takes smaller weights to smaller ones. -/
structure Ranked.StrictlyIncreasing {W W' : Type} [Ranked W] [Ranked W'] (h : W → W') :
    Prop where
  source : TotallyRanked W
  le_antisymm : ∀ {a b : W}, Ranked.le a b = true → Ranked.le b a = true → a = b
  target : TotallyRanked W'
  lt_map : ∀ a b, Ranked.lt a b = true → Ranked.lt (h a) (h b) = true

namespace Ranked

variable {W W' α β : Type} [Ranked W] [Ranked W'] {h : W → W'}

theorem StrictlyIncreasing.embeds (hincreasing : StrictlyIncreasing h) : Embeds h := by
  have := hincreasing.source
  have := hincreasing.target
  have hle : ∀ a b, le (h a) (h b) = le a b := by
    intro a b
    rw [Bool.eq_iff_iff]
    constructor
    · intro hab
      by_contra hnot
      exact lt_iff_not_le.mp (hincreasing.lt_map b a (lt_iff_not_le.mpr hnot)) hab
    · intro hab
      by_cases hba : le b a = true
      · rw [hincreasing.le_antisymm hab hba]
        exact le_refl _
      · exact le_of_lt (hincreasing.lt_map a b (lt_iff_not_le.mpr hba))
  constructor
  · intro a b
    rw [TotallyRanked.lt_eq_not_le, TotallyRanked.lt_eq_not_le, hle]
  · exact hle

variable (hembeds : Embeds h) {weight : α → W} {weight' : β → W'} {g : α → β}
  (hweight : ∀ x, weight' (g x) = h (weight x))

include hembeds hweight

theorem insertReversed_map (x : α) (entries : List α) :
    insertReversed weight' (g x) (entries.map g) =
      (insertReversed weight x entries).map g := by
  induction entries with
  | nil => rfl
  | cons y rest ih =>
      rw [List.map_cons, insertReversed, insertReversed, hweight, hweight, hembeds.lt_map]
      split
      · rw [List.map_cons, ih]
      · rfl

theorem sortDescending_map (entries : List α) :
    sortDescending weight' (entries.map g) = (sortDescending weight entries).map g := by
  have hfold : entries.foldl (fun sorted x => insertReversed weight' (g x) sorted)
        ([].map g) =
      (entries.foldl (fun sorted x => insertReversed weight x sorted) []).map g := by
    apply List.foldl_hom (List.map g)
    intro sorted x
    exact insertReversed_map hembeds hweight x sorted
  unfold sortDescending
  rw [List.map_reverse, ← hfold, List.foldl_map]
  rfl

end Ranked

end WeightedParsing
