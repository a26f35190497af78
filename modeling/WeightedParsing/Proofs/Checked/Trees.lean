import WeightedParsing.Proofs.Chart.Spelling
import WeightedParsing.Proofs.Checked.Passes

/-!
# The trees that checked extraction gives

Back-pointers lead from a span to the parts of it.  Following them with checks gives the
same trees, or breaks off at a sort: the back-pointers that a pass keeps split their spans,
and a tree of an entry covers its span.  No sort breaks off in a pass whose entries are all
fit to be sorted.
-/

namespace WeightedParsing

variable {K S : Type} [WeightAlgebra K S]

/-! ## Fitness for sorting -/

theorem InsidePass.Sortable.cell {pass : InsidePass S} (h : pass.Sortable)
    {first last : Nat} (hspan : first ≤ last) (hlast : last < pass.cells.size) (x : Symbol) :
    (pass.cells.get first last).Sortable x := by
  intro heap hheap
  exact h (first, last) (mem_spansWidening.mpr ⟨hspan, hlast⟩) (x, heap)
    (OrderedTable.mem_of_get? hheap)

theorem InsidePass.sortable [TotallyRanked S] (pass : InsidePass S) : pass.Sortable :=
  fun _ _ _ _ => Ranked.sortable _ _

/-! ## The spans of trees -/

theorem span_followFirst {back : Symbol → (first last : Nat) → Option (Backpointer S)}
    {x : Symbol} {first last : Nat} {tree : ParseTree S}
    (htree : followFirst back x first last = some tree) :
    tree.first = first ∧ tree.last = last := by
  fun_induction followFirst back x first last generalizing tree with
  | case1 => contradiction
  | case2 =>
      cases htree
      exact ⟨rfl, rfl⟩
  | case3 root first last pointer _ rule _ _ left right hright hleft ihleft ihright =>
      cases htree
      exact ⟨(ihleft hleft).1, (ihright hright).2⟩
  | case4 => contradiction
  | case5 => contradiction

namespace InsidePass

variable (model : Model K) (width : Nat) (width_pos : 0 < width) (input : List Symbol)

/-- The best trees of an entry cover its span. -/
theorem span_of_mem_bestTrees {count : Nat} (count_pos : 0 < count) {x : Symbol}
    {first last : Nat} (hspan : first ≤ last) (hlast : last < input.length)
    {tree : ParseTree S}
    (htree : tree ∈ (run model width width_pos input : InsidePass S).bestTrees count count_pos
      x first last) : tree.first = first ∧ tree.last = last :=
  (spells_of_mem_bestTrees model width width_pos input count_pos hspan hlast htree).span_eq

end InsidePass

namespace Checked

theorem join_eq (rule : BinaryRule) (ruleWeight : S) {left right : ParseTree S}
    (h : left.last + 1 = right.first) :
    join rule ruleWeight left right = .ok (.join rule ruleWeight left right) := by
  rw [join, ParseTree.joinAdjacent, if_pos h]

/-! ## The best tree -/

theorem yields_followFirst {sortable : Prop} {size : Nat}
    {read : Symbol → (first last : Nat) → Checked (Option (Backpointer S))}
    {back : Symbol → (first last : Nat) → Option (Backpointer S)}
    (hread : ∀ x first last, first ≤ last → last < size →
      Yields sortable (read x first last) (back x first last))
    (hback : ∀ x first last, first ≤ last → last < size → ∀ pointer ∈ back x first last,
      ∀ rule, pointer.rule = .binary rule → pointer.split < last - first)
    (x : Symbol) {first last : Nat} (hspan : first ≤ last) (hlast : last < size) :
    Yields sortable (followFirst read x first last)
      (WeightedParsing.followFirst back x first last) := by
  induction hwidth : last - first using Nat.strong_induction_on
    generalizing x first last with
  | _ w ih =>
      rw [followFirst, WeightedParsing.followFirst]
      refine (hread x first last hspan hlast).bind ?_
      cases hpointer : back x first last with
      | none => exact .inl rfl
      | some pointer =>
          dsimp only
          cases hrule : pointer.rule with
          | terminal rule => exact .inl rfl
          | binary rule =>
              have hsplit := hback x first last hspan hlast pointer hpointer rule hrule
              have hleft : Yields sortable
                  (followFirst read rule.left first (first + pointer.split))
                  (WeightedParsing.followFirst back rule.left first (first + pointer.split)) :=
                ih _ (by omega) rule.left (by omega) (by omega) rfl
              have hright : Yields sortable
                  (followFirst read rule.right (first + pointer.split + 1) last)
                  (WeightedParsing.followFirst back rule.right (first + pointer.split + 1)
                    last) :=
                ih _ (by omega) rule.right (by omega) hlast rfl
              dsimp only
              rw [dif_pos hsplit, dif_pos hsplit]
              refine hleft.bind ?_
              cases hleftTree : WeightedParsing.followFirst back rule.left first
                  (first + pointer.split) with
              | none => exact .inl rfl
              | some left =>
                  refine hright.bind ?_
                  cases hrightTree : WeightedParsing.followFirst back rule.right
                      (first + pointer.split + 1) last with
                  | none => exact .inl rfl
                  | some right =>
                      have hmeet : left.last + 1 = right.first := by
                        rw [(span_followFirst hleftTree).2, (span_followFirst hrightTree).1]
                      dsimp only
                      rw [join_eq rule _ hmeet]
                      exact .inl rfl

/-! ## The best trees -/

theorem joins_eq (rule : BinaryRule) (ruleWeight : S) {lefts rights : List (ParseTree S)}
    (hmeet : ∀ left ∈ lefts, ∀ right ∈ rights, left.last + 1 = right.first) :
    joins rule ruleWeight lefts rights =
      .ok (lefts.flatMap fun left => rights.map fun right =>
        (.join rule ruleWeight left right, ruleWeight * left.weight * right.weight)) := by
  refine gather_eq fun left hleft => mapM_eq fun right hright => ?_
  rw [join_eq rule ruleWeight (hmeet left hleft right hright)]
  rfl

section Run

variable (model : Model K) (width : Nat) (width_pos : 0 < width) (input : List Symbol)

/-- The back-pointers of an entry come in order, if they are fit to be sorted. -/
theorem sortedBackpointers_eq (x : Symbol) {first last : Nat} (hspan : first ≤ last)
    (hlast : last < input.length) :
    sortedBackpointers (.run model width width_pos input : InsidePass S) x first last =
      if ((InsidePass.run model width width_pos input : InsidePass S).cells.get first
          last).Sortable x then
        .ok ((InsidePass.run model width width_pos input).sortedBackpointers x first last)
      else .error (.misuse .noTotalOrder) := by
  rw [← InsidePass.size_cells_run (S := S) model width width_pos input] at hlast
  rw [sortedBackpointers, SpanTable.reads _ first last hspan hlast]
  rfl

theorem yields_sortedBackpointers (x : Symbol) {first last : Nat} (hspan : first ≤ last)
    (hlast : last < input.length) :
    Yields (InsidePass.run model width width_pos input : InsidePass S).Sortable
      (sortedBackpointers (.run model width width_pos input : InsidePass S) x first last)
      ((InsidePass.run model width width_pos input).sortedBackpointers x first last) := by
  rw [sortedBackpointers_eq model width width_pos input x hspan hlast]
  split
  · exact .inl rfl
  · rename_i hcell
    refine .inr ⟨fun hsortable => hcell (hsortable.cell hspan ?_ x), rfl⟩
    rw [InsidePass.size_cells_run]
    exact hlast

theorem yields_bestTree (x : Symbol) {first last : Nat} (hspan : first ≤ last)
    (hlast : last < input.length) :
    Yields (InsidePass.run model width width_pos input : InsidePass S).Sortable
      (bestTree (.run model width width_pos input : InsidePass S) x first last)
      ((InsidePass.run model width width_pos input).bestTree x first last) := by
  refine yields_followFirst (fun x first last hspan hlast => ?_) ?_ x hspan hlast
  · exact (yields_sortedBackpointers model width width_pos input x hspan hlast).bind (.inl rfl)
  · intro x first last hspan hlast pointer hpointer rule hrule
    exact InsidePass.split_lt_of_mem_sortedBackpointers model width width_pos input hspan
      hlast (List.mem_of_mem_head? hpointer) hrule

theorem yields_bestTrees {count : Nat} (count_pos : 0 < count) (x : Symbol)
    {first last : Nat} (hspan : first ≤ last) (hlast : last < input.length) :
    Yields (InsidePass.run model width width_pos input : InsidePass S).Sortable
      (bestTrees (sortedBackpointers (.run model width width_pos input : InsidePass S)) count
        count_pos x first last)
      ((InsidePass.run model width width_pos input).bestTrees count count_pos x first
        last) := by
  induction hwidth : last - first using Nat.strong_induction_on
    generalizing x first last with
  | _ w ih =>
      rw [bestTrees, InsidePass.bestTrees_run model width width_pos input count_pos hspan hlast]
      refine (yields_sortedBackpointers model width width_pos input x hspan hlast).bind ?_
      refine Yields.bind (yields_gather fun pointer hpointer => ?_) (.inl rfl)
      rw [treesThrough]
      cases hrule : pointer.rule with
      | terminal rule => exact .inl rfl
      | binary rule =>
          have hsplit := InsidePass.split_lt_of_mem_sortedBackpointers model width width_pos
            input hspan hlast (List.mem_of_mem_take hpointer) hrule
          dsimp only
          rw [dif_pos hsplit]
          refine (ih _ (by omega) rule.left (by omega) (by omega) rfl).bind ?_
          refine (ih _ (by omega) rule.right (by omega) hlast rfl).bind (.inl ?_)
          refine joins_eq rule _ fun left hleft right hright => ?_
          have hleftSpan := InsidePass.span_of_mem_bestTrees model width width_pos input
            count_pos (by omega) (by omega) hleft
          have hrightSpan := InsidePass.span_of_mem_bestTrees model width width_pos input
            count_pos (by omega) hlast hright
          rw [hleftSpan.2, hrightSpan.1]

theorem yields_bestTreesForPrior (hinput : 0 < input.length) {count : Nat}
    (count_pos : 0 < count) (prior : SymbolWeights S) :
    Yields (InsidePass.run model width width_pos input : InsidePass S).Sortable
      (bestTreesForPrior (.run model width width_pos input : InsidePass S) count count_pos prior)
      ((InsidePass.run model width width_pos input).bestTreesForPrior count count_pos
        prior) := by
  rw [bestTreesForPrior, InsidePass.bestTreesForPrior, InsidePass.size_cells_run]
  refine Yields.bind (yields_gather fun entry _ => ?_) (.inl rfl)
  rw [sub_eq hinput, ok_bind]
  exact (yields_bestTrees model width width_pos input count_pos entry.1 (Nat.zero_le _)
    (by omega)).bind (.inl rfl)

end Run

end Checked

end WeightedParsing
