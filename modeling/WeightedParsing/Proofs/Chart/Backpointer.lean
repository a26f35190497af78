import Mathlib.Algebra.BigOperators.Ring.List
import WeightedParsing.Chart.Extraction
import WeightedParsing.Proofs.BoundedHeap
import WeightedParsing.Proofs.Chart.Inside
import WeightedParsing.Proofs.Derivation.Tree

/-!
# Back-pointers as sets of derivations

A back-pointer stands for the derivations with its rule at the top and its split.
Every derivation that has weight goes through exactly one back-pointer, and in a
selective algebra the weight of a back-pointer is that of the heaviest derivation
through it.  A cell keeps the heaviest back-pointers of every symbol.
-/

namespace WeightedParsing

variable {K S : Type} [WeightAlgebra K S]

/-- The derivations that a back-pointer stands for, less those that weigh nothing. -/
def Backpointer.derivations (model : Model K) (input : List Symbol)
    (first last : Nat) (back : Backpointer S) : List Derivation :=
  match back.rule with
  | .terminal rule => [.leaf rule]
  | .binary rule =>
      joins back.split rule
        (nonzeroDerivations S model input rule.left first (first + back.split))
        (nonzeroDerivations S model input rule.right (first + back.split + 1) last)

def symbolBackpointers (model : Model K) (input : List Symbol)
    (inside : (first last : Nat) → SymbolWeights S) (x : Symbol) (first last : Nat) :
    List (Backpointer S) :=
  (insideBackpointers model input inside first last).filter fun back =>
    back.rule.parent = x

section Exhaustive

variable [SelectiveWeights K S]

attribute [local instance] LawfulWeights.semiring

/-- The inside weights that a span is built from sum up derivations. -/
def SumsNarrower (model : Model K) (input : List Symbol)
    (inside : (first last : Nat) → SymbolWeights S) (first last : Nat) : Prop :=
  ∀ split < last - first, ∀ x,
    (inside first (first + split)).get x =
        derivationSum model input x first (first + split) ∧
      (inside (first + split + 1) last).get x =
        derivationSum model input x (first + split + 1) last

variable {model : Model K} {input : List Symbol}
  {inside : (first last : Nat) → SymbolWeights S} {x : Symbol} {first last : Nat}

theorem Backpointer.sum_derivations {back : Backpointer S}
    (hsums : SumsNarrower model input inside first last)
    (hback : back ∈ insideBackpointers model input inside first last) :
    ((back.derivations model input first last).map (Derivation.weight model)).sum =
      back.derivationWeight := by
  rcases mem_insideBackpointers.mp hback with
    ⟨rule, _, _, rfl⟩ | ⟨split, hsplit, rule, _, _, rfl⟩
  · exact add_zero _
  · obtain ⟨hleft, _⟩ := hsums split hsplit rule.left
    obtain ⟨_, hright⟩ := hsums split hsplit rule.right
    simp only [derivations, sum_joins, sum_nonzeroDerivations, hleft, hright]

theorem filter_root_joins (split : Nat) (rule : BinaryRule)
    (lefts rights : List Derivation) (x : Symbol) :
    ((joins split rule lefts rights).filter fun d => d.root = x) =
      if rule.parent = x then joins split rule lefts rights else [] := by
  have hroot : ∀ d ∈ joins split rule lefts rights, d.root = rule.parent := by
    intro d hd
    obtain ⟨left, _, right, _, rfl⟩ := mem_joins.mp hd
    rfl
  split
  · rename_i hparent
    rw [List.filter_eq_self]
    intro d hd
    simp [hroot d hd, hparent]
  · rename_i hparent
    rw [List.filter_eq_nil_iff]
    intro d hd
    simp [hroot d hd, hparent]

omit [SelectiveWeights K S] in
theorem flatMap_terminalBackpointer (rule : TerminalRule) (x : Symbol) :
    ((if WeightAlgebra.isZero (model.weigh (.terminal rule) : S) then none
        else some (⟨0, .terminal rule, model.weigh (.terminal rule),
          model.weigh (.terminal rule)⟩ : Backpointer S)).toList.filter
            fun back => back.rule.parent = x).flatMap
              (Backpointer.derivations model input first last) =
      ([Derivation.leaf rule].filter fun d => d.root = x).filter
        (Derivation.hasWeight S model) := by
  have hleaf : (Derivation.leaf rule).hasWeight S model =
      !WeightAlgebra.isZero (model.weigh (.terminal rule) : S) := rfl
  by_cases hparent : rule.parent = x
  · split
    · rename_i hweight
      simp [Derivation.root, hparent, hleaf, hweight]
    · rename_i hweight
      simp [Derivation.root, Rule.parent, hparent, hleaf, hweight,
        Backpointer.derivations]
  · split
    · simp [Derivation.root, hparent]
    · simp [Derivation.root, Rule.parent, hparent]

theorem flatMap_binaryBackpointer? (hsums : SumsNarrower model input inside first last)
    {split : Nat} (hsplit : split < last - first) (rule : BinaryRule) (x : Symbol) :
    ((binaryBackpointer? model (inside first (first + split))
        (inside (first + split + 1) last) split rule).toList.filter
          fun back : Backpointer S => back.rule.parent = x).flatMap
            (Backpointer.derivations model input first last) =
      ((joins split rule (derivations model.policy input rule.left first (first + split))
        (derivations model.policy input rule.right (first + split + 1) last)).filter
          fun d => d.root = x).filter (Derivation.hasWeight S model) := by
  obtain ⟨hleft, _⟩ := hsums split hsplit rule.left
  obtain ⟨_, hright⟩ := hsums split hsplit rule.right
  rw [filter_root_joins]
  cases hback : binaryBackpointer? model (inside first (first + split))
      (inside (first + split + 1) last) split rule with
  | none =>
      have hweight := binaryBackpointer?_eq_none_iff.mp hback
      rw [hleft, hright] at hweight
      split
      · exact (filter_joins_eq_nil hweight).symm
      · rfl
  | some back =>
      obtain ⟨hweight, rfl⟩ := binaryBackpointer?_eq_some_iff.mp hback
      have hrule : (model.weigh (.binary rule) : S) ≠ 0 :=
        left_ne_zero_of_mul (left_ne_zero_of_mul hweight)
      split
      · rename_i hparent
        rw [filter_joins model hrule]
        simp [Rule.parent, hparent, Backpointer.derivations, nonzeroDerivations]
      · rename_i hparent
        simp [Rule.parent, hparent]

/-- Every derivation that has weight goes through one back-pointer of its symbol. -/
theorem nonzeroDerivations_eq_flatMap (hpolicy : model.policy.Covering)
    (hspan : first ≤ last) (hlast : last < input.length)
    (hsums : SumsNarrower model input inside first last) (x : Symbol) :
    nonzeroDerivations S model input x first last =
      (symbolBackpointers model input inside x first last).flatMap
        (Backpointer.derivations model input first last) := by
  rw [nonzeroDerivations, derivations, derivationsOver, symbolBackpointers,
    insideBackpointers, terminalBackpointers, binaryBackpointers,
    hpolicy.lexicalRules_eq hspan hlast]
  simp only [List.filter_append, List.flatMap_append, List.filterMap_eq_flatMap_toList,
    List.filter_flatMap, List.flatMap_assoc, List.map_eq_flatMap]
  rw [← List.map_coe_finRange_eq_range, List.flatMap_map]
  congr 1
  · apply List.flatMap_congr
    intro rule _
    exact (flatMap_terminalBackpointer rule x).symm
  · apply List.flatMap_congr
    intro split _
    apply List.flatMap_congr
    intro rule _
    exact (flatMap_binaryBackpointer? hsums split.isLt rule x).symm

/-- No derivation through a back-pointer outweighs it, and some derivation weighs as
much. -/
theorem Backpointer.isMax_derivations {back : Backpointer S}
    (hsums : SumsNarrower model input inside first last)
    (hback : back ∈ insideBackpointers model input inside first last) :
    (∀ d ∈ back.derivations model input first last,
        Ranked.le (d.weight model) back.derivationWeight = true) ∧
      ∃ d ∈ back.derivations model input first last,
        d.weight model = back.derivationWeight := by
  have hsum := sum_derivations hsums hback
  have hweight : back.derivationWeight ≠ 0 := by
    rcases mem_insideBackpointers.mp hback with
      ⟨rule, _, hweight, rfl⟩ | ⟨split, _, rule, _, hweight, rfl⟩
    · exact hweight
    · exact hweight
  rw [← hsum] at hweight ⊢
  constructor
  · intro d hd
    exact le_sum_of_mem (Derivation.weight model) hd
  · exact exists_eq_sum hweight

end Exhaustive

/-! ## The back-pointers that a cell keeps -/

theorem InsideCell.sortedBackpointers_ofBackpointers
    (hselective : WeightAlgebra.selective S = true) (width : Nat)
    (width_pos : 0 < width) (backs : List (Backpointer S)) (x : Symbol) :
    (ofBackpointers width width_pos backs).sortedBackpointers x =
      ((BoundedHeap.empty width width_pos).offerAll
        ((backs.filter fun back => back.rule.parent = x).map fun back =>
          (back, back.derivationWeight))).sorted.map Prod.fst := by
  have hfold : ∀ cell : InsideCell S,
      ((backs.foldl (add width width_pos) cell).backpointers.get? x).getD
          (.empty width width_pos) =
        ((cell.backpointers.get? x).getD (.empty width width_pos)).offerAll
          ((backs.filter fun back => back.rule.parent = x).map fun back =>
            (back, back.derivationWeight)) := by
    induction backs with
    | nil => intro cell; rfl
    | cons back rest ih =>
        intro cell
        rw [List.foldl_cons, ih, List.filter_cons]
        by_cases hparent : back.rule.parent = x
        · subst hparent
          simp [add, hselective, BoundedHeap.offerAll]
        · have hother := OrderedTable.get?_update_of_ne cell.backpointers
            (Ne.symm hparent) fun heap =>
              (heap.getD (.empty width width_pos)).offer back back.derivationWeight
          simp [add, hselective, hparent, hother]
  have hheap := hfold .empty
  change ((ofBackpointers width width_pos backs).backpointers.get? x).getD _ =
    (BoundedHeap.empty width width_pos).offerAll _ at hheap
  rw [← hheap, sortedBackpointers]
  cases (ofBackpointers width width_pos backs).backpointers.get? x with
  | some heap => rfl
  | none => rfl

/-- However weights compare, a cell keeps for a symbol only what it was built from. -/
theorem InsideCell.sortedBackpointers_subset (width : Nat) (width_pos : 0 < width)
    (backs : List (Backpointer S)) (x : Symbol) :
    (ofBackpointers width width_pos backs).sortedBackpointers x ⊆
      backs.filter fun back => back.rule.parent = x := by
  by_cases hselective : WeightAlgebra.selective S = true
  · rw [sortedBackpointers_ofBackpointers hselective]
    intro back hback
    obtain ⟨entry, hentry, rfl⟩ := List.mem_map.mp hback
    have hheld := (Ranked.sortDescending_perm _ _).mem_iff.mp hentry
    have hoffered := BoundedHeap.toList_offerAll_empty_subset width_pos _ hheld
    obtain ⟨offered, hmem, rfl⟩ := List.mem_map.mp hoffered
    exact hmem
  · have hnone : ∀ cell : InsideCell S,
        (backs.foldl (add width width_pos) cell).backpointers = cell.backpointers := by
      induction backs with
      | nil => intro cell; rfl
      | cons back rest ih =>
          intro cell
          rw [List.foldl_cons, ih, add, if_neg hselective]
    intro back hback
    rw [ofBackpointers, sortedBackpointers, hnone] at hback
    contradiction

/-- A back-pointer over a span by a rule that the policy allows there, with the weight
that the model gives to the rule. -/
inductive Backpointer.Allowed (model : Model K) (input : List Symbol) (first last : Nat) :
    Backpointer S → Prop where
  | terminal {rule : TerminalRule} {weight : S}
      (hrule : rule ∈ model.policy.terminalRules input first last) :
      Allowed model input first last
        ⟨0, .terminal rule, weight, model.weigh (.terminal rule)⟩
  | binary {split : Nat} {rule : BinaryRule} {weight : S} (hsplit : split < last - first)
      (hrule : rule ∈ model.policy.binaryRules first last split) :
      Allowed model input first last
        ⟨split, .binary rule, weight, model.weigh (.binary rule)⟩

theorem Policy.lexicalRules_subset (policy : Policy) (input : List Symbol)
    (first last : Nat) :
    policy.lexicalRules input first last ⊆ policy.terminalRules input first last := by
  unfold lexicalRules
  split
  · exact List.Subset.refl _
  · exact List.nil_subset _

/-- The inside pass makes up no rules, whatever the inside weights are. -/
theorem allowed_of_mem_insideBackpointers {model : Model K} {input : List Symbol}
    {inside : (first last : Nat) → SymbolWeights S} {first last : Nat}
    {back : Backpointer S}
    (hback : back ∈ insideBackpointers model input inside first last) :
    back.Allowed model input first last := by
  rcases List.mem_append.mp hback with hback | hback
  · obtain ⟨rule, hrule, hsome⟩ := List.mem_filterMap.mp hback
    dsimp only at hsome
    split at hsome
    · contradiction
    · cases hsome
      exact .terminal (model.policy.lexicalRules_subset input first last hrule)
  · obtain ⟨split, hsplit, hback⟩ := List.mem_flatMap.mp hback
    obtain ⟨rule, hrule, hsome⟩ := List.mem_filterMap.mp hback
    unfold binaryBackpointer? at hsome
    dsimp only at hsome
    repeat' split at hsome
    all_goals cases hsome
    exact .binary (List.mem_range.mp hsplit) hrule

/-- A finished inside pass keeps the heaviest back-pointers of every symbol. -/
theorem InsidePass.heaviest_sortedBackpointers [MaximumWeights K S]
    (model : Model K) (width : Nat) (width_pos : 0 < width) (input : List Symbol)
    {first last : Nat} (hspan : first ≤ last) (hlast : last < input.length)
    (x : Symbol) :
    Heaviest Backpointer.derivationWeight width
        (symbolBackpointers model input
          (run model width width_pos input : InsidePass S).inside x first last)
        ((run model width width_pos input).sortedBackpointers x first last) ∧
      Ranked.Descending Backpointer.derivationWeight
        ((run model width width_pos input : InsidePass S).sortedBackpointers x first
          last) := by
  obtain ⟨kept, hsorted, hkept⟩ := BoundedHeap.sorted_offerAll_empty width_pos id
    Backpointer.derivationWeight (symbolBackpointers model input
      (run model width width_pos input : InsidePass S).inside x first last)
  have heq : (run model width width_pos input : InsidePass S).sortedBackpointers x
      first last = kept := by
    rw [sortedBackpointers, get_cells_run model width width_pos input hspan hlast,
      InsideCell.sortedBackpointers_ofBackpointers MaximumWeights.selective]
    have hfst := congrArg (List.map Prod.fst) hsorted
    rw [List.map_map, Function.comp_def] at hfst
    simpa [symbolBackpointers] using hfst
  rw [heq]
  exact hkept

end WeightedParsing
