import WeightedParsing.Proofs.Chart.Extraction
import WeightedParsing.Proofs.Derivation.Spelling

/-!
# Trees of a chart spell derivations

Both ways to extract trees, from the top down and from the narrow spans on, put them
together from the kept back-pointers, and these apply rules that the policy allows.  So a
tree that comes out spells a derivation, also where weights obey no law and nothing can be
said about how heavy it is.
-/

namespace WeightedParsing

variable {K S : Type} [WeightAlgebra K S] {model : Model K} {input : List Symbol}

/-- Back-pointers that apply rules of the policy lead to derivations only. -/
theorem spells_followFirst
    {back : Symbol → (first last : Nat) → Option (Backpointer S)}
    (hback : ∀ x first last, first ≤ last → last < input.length →
      ∀ pointer ∈ back x first last,
        pointer.Allowed model input first last ∧ pointer.rule.parent = x)
    {x : Symbol} {first last : Nat} (hspan : first ≤ last) (hlast : last < input.length)
    {tree : ParseTree S} (htree : followFirst back x first last = some tree) :
    tree.Spells model input x first last := by
  fun_induction followFirst back x first last generalizing tree with
  | case1 => cases htree
  | case2 x first last pointer hpointer rule hrule =>
      obtain ⟨hallowed, rfl⟩ := hback x first last hspan hlast pointer hpointer
      cases hallowed with
      | terminal hmem =>
          cases hrule
          cases htree
          exact ParseTree.spells_leaf hmem
      | binary _ _ => cases hrule
  | case3 x first last pointer hpointer rule hrule hsplit left right hright hleft ihLeft
      ihRight =>
      obtain ⟨hallowed, rfl⟩ := hback x first last hspan hlast pointer hpointer
      cases hallowed with
      | terminal _ => cases hrule
      | binary _ hmem =>
          cases hrule
          cases htree
          exact .join hsplit hmem (ihLeft (by omega) (by omega) hleft)
            (ihRight (by omega) hlast hright)
  | case4 => cases htree
  | case5 => cases htree

theorem spells_of_mem_treesThrough
    {trees : Symbol → (first last : Nat) → List (ParseTree S)} {first last : Nat}
    {pointer : Backpointer S} (hallowed : pointer.Allowed model input first last)
    (htrees : ∀ x s e, s ≤ e → e ≤ last → e - s < last - first →
      ∀ tree ∈ trees x s e, tree.Spells model input x s e)
    {entry : ParseTree S × S} (hentry : entry ∈ treesThrough trees first last pointer) :
    entry.1.Spells model input pointer.rule.parent first last := by
  cases hallowed with
  | terminal hmem =>
      rw [treesThrough, List.mem_singleton] at hentry
      rw [hentry]
      exact ParseTree.spells_leaf hmem
  | @binary split rule weight hsplit hmem =>
      obtain ⟨left, hleft, hentry⟩ := List.mem_flatMap.mp hentry
      obtain ⟨right, hright, rfl⟩ := List.mem_map.mp hentry
      exact .join hsplit hmem
        (htrees rule.left first (first + split) (by omega) (by omega) (by omega) left hleft)
        (htrees rule.right (first + split + 1) last (by omega) (Nat.le_refl _) (by omega)
          right hright)

namespace InsidePass

variable (model : Model K) (width : Nat) (width_pos : 0 < width) (input : List Symbol)
  {first last : Nat}

theorem spells_bestTree (hspan : first ≤ last) (hlast : last < input.length) {x : Symbol}
    {tree : ParseTree S}
    (htree : (run model width width_pos input : InsidePass S).bestTree x first last =
      some tree) :
    tree.Spells model input x first last := by
  refine spells_followFirst (fun y s e hse he pointer hpointer => ?_) hspan hlast htree
  exact allowed_of_mem_sortedBackpointers model width width_pos input hse he
    (List.mem_of_mem_head? hpointer)

theorem spells_of_mem_bestTrees {count : Nat} (count_pos : 0 < count)
    (hspan : first ≤ last) (hlast : last < input.length) {x : Symbol} {tree : ParseTree S}
    (htree : tree ∈ (run model width width_pos input : InsidePass S).bestTrees count
      count_pos x first last) :
    tree.Spells model input x first last := by
  induction hwidth : last - first using Nat.strong_induction_on
    generalizing x first last tree with
  | _ w ih =>
      rw [bestTrees_run model width width_pos input count_pos hspan hlast] at htree
      obtain ⟨entry, hentry, rfl⟩ :=
        List.mem_map.mp (mem_of_mem_selectTrees count_pos htree)
      obtain ⟨pointer, hpointer, hthrough⟩ := List.mem_flatMap.mp hentry
      obtain ⟨hallowed, rfl⟩ := allowed_of_mem_sortedBackpointers model width width_pos
        input hspan hlast (List.mem_of_mem_take hpointer)
      refine spells_of_mem_treesThrough hallowed (fun y s e hse he hlt part hpart => ?_)
        hthrough
      exact ih (e - s) (by omega) hse (by omega) hpart rfl

/-- A tree of the whole input under weighted roots is a tree of its root, multiplied by
the weight of that. -/
theorem exists_of_mem_bestTreesForPrior {count : Nat} (count_pos : 0 < count)
    (hinput : input ≠ []) {roots : SymbolWeights S} {tree : ParseTree S}
    (htree : tree ∈ (run model width width_pos input : InsidePass S).bestTreesForPrior
      count count_pos roots) :
    ∃ (part : ParseTree S) (factor : S),
      part.Spells model input part.root 0 (input.length - 1) ∧
        (part.root, factor) ∈ roots.entries ∧ tree = part.multiply factor ∧
          ¬WeightAlgebra.isZero tree.weight = true := by
  have hpos := List.length_pos_of_ne_nil hinput
  obtain ⟨weighted, hweighted, rfl⟩ :=
    List.mem_map.mp (mem_of_mem_selectTrees count_pos htree)
  obtain ⟨⟨x, factor⟩, hroot, hweighted⟩ := List.mem_flatMap.mp hweighted
  obtain ⟨part, hpart, hsome⟩ := List.mem_filterMap.mp hweighted
  rw [size_cells_run] at hpart
  have hspells := spells_of_mem_bestTrees model width width_pos input count_pos
    (Nat.zero_le _) (by omega) hpart
  obtain rfl := hspells.root_eq
  dsimp only at hsome
  split at hsome
  · cases hsome
  · rename_i hweight
    cases hsome
    exact ⟨part, factor, hspells, hroot, rfl, hweight⟩

end InsidePass

end WeightedParsing
