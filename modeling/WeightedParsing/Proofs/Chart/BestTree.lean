import WeightedParsing.Proofs.Chart.Extraction
import WeightedParsing.Proofs.Derivation.Parse

/-!
# The best tree of an entry

An inside weight and the back-pointers of its entry are two records of one maximum.  They
agree at every span: the first back-pointer, if there is one, weighs as much as the entry,
and an entry without back-pointers weighs nothing.  A back-pointer whose children weigh
something leads to entries with back-pointers of their own, so that following the first
one from entry to entry never gets stuck and spells out a heaviest derivation.
-/

namespace WeightedParsing

variable {K S : Type} [WeightAlgebra K S]

/-- Following back-pointers from an entry ends in a tree.  Nothing keeps a back-pointer
from splitting elsewhere than in its span here, and the spans of children have to meet. -/
inductive Follows (back : Symbol → (first last : Nat) → Option (Backpointer S)) :
    Symbol → Nat → Nat → ParseTree S → Prop where
  | leaf {root : Symbol} {first last : Nat} {pointer : Backpointer S}
      {rule : TerminalRule} (hback : back root first last = some pointer)
      (hrule : pointer.rule = .terminal rule) :
      Follows back root first last (.leaf rule pointer.ruleWeight first last)
  | node {root : Symbol} {first last : Nat} {pointer : Backpointer S} {rule : BinaryRule}
      {left right tree : ParseTree S} (hback : back root first last = some pointer)
      (hrule : pointer.rule = .binary rule)
      (hleft : Follows back rule.left first (first + pointer.split) left)
      (hright : Follows back rule.right (first + pointer.split + 1) last right)
      (hjoin : ParseTree.joinAdjacent rule pointer.ruleWeight left right = .ok tree) :
      Follows back root first last tree

/-- The back-pointer of the entry at the root of a tree has the rule that is read off the
tree. -/
def ParseTree.HasPointer
    (back : Symbol → (first last : Nat) → Option (Backpointer S)) (tree : ParseTree S) :
    Prop :=
  ∃ pointer, back tree.root tree.first tree.last = some pointer ∧
    pointer.rule = tree.rule

section Following

/-- What an entry may offer to follow: nothing if it weighs nothing, and else a
back-pointer of one of its rules that weighs as much as the entry. -/
inductive PointsToBest (model : Model K) (input : List Symbol) (x : Symbol)
    (first last : Nat) : Option (Backpointer S) → Prop where
  | none (hzero : (derivationSum model input x first last : S) = 0) :
      PointsToBest model input x first last none
  | terminal {rule : TerminalRule} {split : Nat} {weight : S}
      (hrule : rule ∈ model.policy.terminalRules input first last)
      (hparent : rule.parent = x)
      (hsum : derivationSum model input x first last =
        (model.weigh (.terminal rule) : S))
      (hne : (derivationSum model input x first last : S) ≠ 0) :
      PointsToBest model input x first last
        (some ⟨split, .terminal rule, weight, model.weigh (.terminal rule)⟩)
  | binary {rule : BinaryRule} {split : Nat} {weight : S} (hsplit : split < last - first)
      (hrule : rule ∈ model.policy.binaryRules first last split)
      (hparent : rule.parent = x)
      (hsum : derivationSum model input x first last =
        (model.weigh (.binary rule) *
          derivationSum model input rule.left first (first + split) *
            derivationSum model input rule.right (first + split + 1) last : S))
      (hne : (derivationSum model input x first last : S) ≠ 0) :
      PointsToBest model input x first last
        (some ⟨split, .binary rule, weight, model.weigh (.binary rule)⟩)

variable {model : Model K} {input : List Symbol}
  {back : Symbol → (first last : Nat) → Option (Backpointer S)}

theorem followFirst_eq_none {x : Symbol} {first last : Nat}
    (hback : PointsToBest model input x first last (back x first last))
    (hzero : (derivationSum model input x first last : S) = 0) :
    followFirst back x first last = none := by
  rw [followFirst]
  generalize back x first last = pointer at hback
  cases hback with
  | none => rfl
  | terminal _ _ _ hne => exact absurd hzero hne
  | binary _ _ _ _ hne => exact absurd hzero hne

theorem hasPointer_tree {d : Derivation} {first last : Nat} {pointer : Backpointer S}
    (hback : back d.root first last = some pointer)
    (hrule : pointer.rule = (d.tree model first last : ParseTree S).rule) :
    (d.tree model first last).HasPointer back := by
  refine ⟨pointer, ?_, hrule⟩
  rw [Derivation.root_tree, Derivation.first_tree, Derivation.last_tree]
  exact hback

variable [LawfulWeights K S]

attribute [local instance] LawfulWeights.semiring

/-- Where every entry offers its best back-pointer, following them from an entry that
weighs something ends in the tree of a derivation that weighs as much. -/
theorem exists_followFirst_eq
    (hback : ∀ x first last, first ≤ last → last < input.length →
      PointsToBest model input x first last (back x first last))
    {x : Symbol} {first last : Nat} (hspan : first ≤ last) (hlast : last < input.length)
    (hne : (derivationSum model input x first last : S) ≠ 0) :
    ∃ d, Derives model.policy input x first last d ∧
      followFirst back x first last = some (d.tree model first last) ∧
      d.weight model = (derivationSum model input x first last : S) ∧
      Follows back x first last (d.tree model first last) ∧
      (d.tree model first last).EveryPart (ParseTree.HasPointer back) := by
  induction hwidth : last - first using Nat.strong_induction_on
    generalizing x first last with
  | _ width ih =>
      have hentry := hback x first last hspan hlast
      rw [followFirst]
      generalize hpointer : back x first last = pointer at hentry
      cases hentry with
      | none hzero => exact absurd hzero hne
      | @terminal rule split weight hrule hparent hsum _ =>
          subst hparent
          refine ⟨.leaf rule, .leaf hrule, rfl, hsum.symm, ?_, ?_⟩
          · exact .leaf hpointer rfl
          · exact ParseTree.everyPart_leaf ⟨_, hpointer, rfl⟩
      | @binary rule split weight hsplit hrule hparent hsum _ =>
          subst hparent
          rw [hsum] at hne
          have hleftSpan : first ≤ first + split := by omega
          have hrightSpan : first + split + 1 ≤ last := by omega
          obtain ⟨left, hleft, hleftTree, hleftWeight, hleftFollows, hleftParts⟩ :=
            ih split (by omega) hleftSpan (by omega)
              (right_ne_zero_of_mul (left_ne_zero_of_mul hne)) (by omega)
          obtain ⟨right, hright, hrightTree, hrightWeight, hrightFollows,
              hrightParts⟩ :=
            ih (last - (first + split + 1)) (by omega) hrightSpan hlast
              (right_ne_zero_of_mul hne) rfl
          refine ⟨.node split rule left right, .node hsplit hrule hleft hright, ?_, ?_,
            ?_, ?_⟩
          · simp only [dif_pos hsplit, hleftTree, hrightTree, Derivation.tree]
          · rw [Derivation.weight, hleftWeight, hrightWeight, hsum]
          · refine .node hpointer rfl hleftFollows hrightFollows ?_
            exact if_pos (by simp)
          · refine ParseTree.everyPart_node ?_ hleftParts hrightParts
            exact hasPointer_tree (d := .node split rule left right) hpointer
              ((Derives.node hsplit hrule hleft hright).rule_tree model).symm

end Following

/-! ## The first back-pointer -/

section First

variable [SelectiveWeights K S] {model : Model K} {input : List Symbol}
  {inside : (first last : Nat) → SymbolWeights S} {x : Symbol}
  {first last : Nat}

/-- A back-pointer that no other outweighs weighs as much as its entry. -/
theorem derivationSum_eq_of_isMax (hpolicy : model.policy.Covering) (hspan : first ≤ last)
    (hlast : last < input.length) (hsums : SumsNarrower model input inside first last)
    {pointer : Backpointer S}
    (hmem : pointer ∈ symbolBackpointers model input inside x first last)
    (hmax : ∀ other ∈ symbolBackpointers model input inside x first last,
      Ranked.le other.derivationWeight pointer.derivationWeight = true) :
    derivationSum model input x first last = pointer.derivationWeight ∧
      (derivationSum model input x first last : S) ≠ 0 := by
  have hparts := nonzeroDerivations_eq_flatMap hpolicy hspan hlast hsums x
  have hsum := sum_nonzeroDerivations (S := S) model input x first last
  have hinside : ∀ other ∈ symbolBackpointers model input inside x first last,
      other ∈ insideBackpointers model input inside first last :=
    fun other hother => List.mem_of_mem_filter hother
  obtain ⟨d, hd, hweight⟩ :=
    (Backpointer.isMax_derivations hsums (hinside pointer hmem)).2
  have hdNonzero : d ∈ nonzeroDerivations S model input x first last := by
    rw [hparts]
    exact List.mem_flatMap.mpr ⟨pointer, hmem, hd⟩
  have hge : Ranked.le pointer.derivationWeight
      (derivationSum model input x first last : S) = true := by
    rw [← hweight, ← hsum]
    exact le_sum_of_mem (Derivation.weight model) hdNonzero
  have hne : (derivationSum model input x first last : S) ≠ 0 := by
    intro hzero
    rw [← hsum] at hzero
    have hdZero : d.weight model = (0 : S) := eq_zero_of_sum_eq_zero hzero hdNonzero
    exact Derivation.hasWeight_iff.mp (List.mem_filter.mp hdNonzero).2 hdZero
  refine ⟨MaximumWeights.le_antisymm ?_ hge, hne⟩
  rw [← hsum] at hne ⊢
  obtain ⟨best, hbest, hbestWeight⟩ := exists_eq_sum hne
  rw [hparts] at hbest
  obtain ⟨other, hother, hbest⟩ := List.mem_flatMap.mp hbest
  rw [← hbestWeight]
  have hthrough :=
    (Backpointer.isMax_derivations hsums (hinside other hother)).1 best hbest
  exact TotallyRanked.le_trans hthrough (hmax other hother)

end First

namespace InsidePass

def firstBackpointer (pass : InsidePass S) (symbol : Symbol) (first last : Nat) :
    Option (Backpointer S) :=
  (pass.sortedBackpointers symbol first last).head?

variable [SelectiveWeights K S] (model : Model K) (width : Nat)
  (width_pos : 0 < width) (input : List Symbol) {first last : Nat}

theorem pointsToBest_firstBackpointer (hpolicy : model.policy.Covering) (hspan : first ≤ last)
    (hlast : last < input.length) (x : Symbol) :
    PointsToBest model input x first last
      ((run model width width_pos input : InsidePass S).firstBackpointer x first
        last) := by
  unfold firstBackpointer
  have hsums : SumsNarrower model input
      (run model width width_pos input : InsidePass S).inside first last :=
    sumsNarrower_run model width width_pos input hpolicy hlast
  obtain ⟨hkept, hsorted⟩ :=
    heaviest_sortedBackpointers (S := S) model width width_pos input hspan hlast x
  cases hpointers : (run model width width_pos input : InsidePass S).sortedBackpointers x
      first last with
  | nil =>
      rw [hpointers] at hkept
      refine .none ?_
      rw [← sum_nonzeroDerivations,
        nonzeroDerivations_eq_flatMap hpolicy hspan hlast hsums,
        hkept.all_eq_nil width_pos]
      rfl
  | cons pointer rest =>
      rw [hpointers] at hkept hsorted
      have hmem := hkept.mem List.mem_cons_self
      obtain ⟨hsum, hne⟩ := derivationSum_eq_of_isMax hpolicy hspan hlast hsums hmem
        (hkept.le_head hsorted)
      obtain ⟨hinside, hparent⟩ := List.mem_filter.mp hmem
      simp only [decide_eq_true_eq] at hparent
      rcases mem_insideBackpointers.mp hinside with
        ⟨rule, hrule, _, rfl⟩ | ⟨split, hsplit, rule, hrule, _, rfl⟩
      · rw [hpolicy.lexicalRules_eq hspan hlast] at hrule
        exact .terminal hrule hparent hsum hne
      · obtain ⟨hleft, _⟩ := hsums split hsplit rule.left
        obtain ⟨_, hright⟩ := hsums split hsplit rule.right
        rw [hleft, hright] at hsum
        exact .binary hsplit hrule hparent hsum hne

/-- The tree parses a span as a symbol, is what following back-pointers ends in, and
weighs as much as the entry and no less than any derivation. -/
structure IsBestTree (pass : InsidePass S) (model : Model K) (x : Symbol)
    (first last : Nat) (tree : ParseTree S) : Prop where
  parse : IsParse model pass.input x first last tree
  derivation : ∃ d, Derives model.policy pass.input x first last d ∧
    tree = d.tree model first last
  follows : Follows pass.firstBackpointer x first last tree
  pointers : tree.EveryPart (ParseTree.HasPointer pass.firstBackpointer)
  weight_eq : tree.weight = (pass.inside first last).get x
  derivation_le : ∀ d, Derives model.policy pass.input x first last d →
    Ranked.le (d.weight model) tree.weight = true

theorem bestTree_run_eq_none (hpolicy : model.policy.Covering) (hspan : first ≤ last)
    (hlast : last < input.length) {x : Symbol}
    (hzero : (derivationSum model input x first last : S) = 0) :
    (run model width width_pos input : InsidePass S).bestTree x first last = none :=
  followFirst_eq_none
    (pointsToBest_firstBackpointer model width width_pos input hpolicy hspan hlast x)
    hzero

/-- The best tree of an entry that weighs something is the tree of a heaviest
derivation. -/
theorem exists_bestTree_run_eq (hpolicy : model.policy.Covering) (hspan : first ≤ last)
    (hlast : last < input.length) {x : Symbol}
    (hne : (derivationSum model input x first last : S) ≠ 0) :
    ∃ d, Derives model.policy input x first last d ∧
      (run model width width_pos input : InsidePass S).bestTree x first last =
        some (d.tree model first last) ∧
      d.weight model = (derivationSum model input x first last : S) ∧
      Follows (run model width width_pos input).firstBackpointer x first last
        (d.tree model first last : ParseTree S) ∧
      (d.tree model first last : ParseTree S).EveryPart
        (ParseTree.HasPointer (run model width width_pos input).firstBackpointer) :=
  exists_followFirst_eq (fun y _ _ hse he =>
    pointsToBest_firstBackpointer model width width_pos input hpolicy hse he y) hspan
    hlast hne

theorem bestTree_run_spec (hpolicy : model.policy.Lawful) (hspan : first ≤ last)
    (hlast : last < input.length) (x : Symbol) :
    ((run model width width_pos input : InsidePass S).bestTree x first last = none ↔
        ((run model width width_pos input : InsidePass S).inside first last).get x =
          0) ∧
      ∀ tree ∈ (run model width width_pos input : InsidePass S).bestTree x first last,
        (run model width width_pos input).IsBestTree model x first last tree := by
  have hinside := get_inside_run_eq_derivationSum (S := S) model hpolicy width width_pos
    input hspan hlast x
  by_cases hzero : (derivationSum model input x first last : S) = 0
  · rw [bestTree_run_eq_none model width width_pos input hpolicy hspan hlast hzero,
      hinside]
    simp [hzero]
  · obtain ⟨d, hd, hfollow, hweight, hfollows, hparts⟩ :=
      exists_bestTree_run_eq model width width_pos input hpolicy hspan hlast hzero
    rw [hfollow, hinside]
    refine ⟨by simp [hzero], ?_⟩
    intro tree htree
    obtain rfl := Option.some.inj htree
    refine ⟨hd.isParse hpolicy hspan hlast, ⟨d, hd, rfl⟩, hfollows, hparts, ?_, ?_⟩
    · rw [Derivation.weight_tree, hweight, hinside]
    · intro other hother
      rw [Derivation.weight_tree, hweight]
      exact le_sum_of_mem (Derivation.weight model) (mem_derivations.mpr hother)

end InsidePass

namespace Chart

theorem bestTreeWithSpan_eq {chart : Chart S} {pass : InsidePass S} {first last : Nat}
    (hpass : chart.insidePass = .ok pass)
    (hselective : WeightAlgebra.selective S = true) (hspan : first ≤ last)
    (hlast : last < chart.length) (x : Symbol) :
    chart.bestTreeWithSpan x first last = .ok (pass.bestTree x first last) := by
  unfold bestTreeWithSpan requireSelective
  rw [if_pos hselective, hpass]
  exact answer_of_le hspan hlast _

theorem bestTreeWithSpan_insideDone {length width : Nat} {width_pos : 0 < width}
    {pass : InsidePass S} {first last : Nat}
    (hselective : WeightAlgebra.selective S = true) (hspan : first ≤ last)
    (hlast : last < length) (x : Symbol) :
    (⟨length, width, width_pos, .insideDone pass⟩ : Chart S).bestTreeWithSpan x first
        last = .ok (pass.bestTree x first last) :=
  bestTreeWithSpan_eq rfl hselective hspan hlast x

/-- After the inside pass over a selective algebra there is a best tree of an entry
unless the entry weighs nothing, and it is a derivation that no other outweighs. -/
theorem bestTree_is_best_derivation [SelectiveWeights K S] (model : Model K)
    (hpolicy : model.policy.Lawful) (width : Nat) (width_pos : 0 < width)
    (input : List Symbol) (hinput : input ≠ []) :
    ∃ (chart : Chart S) (pass : InsidePass S),
      (blank input.length width width_pos).fillInside model input = .ok chart ∧
        chart.insidePass = .ok pass ∧ pass.input = input ∧
          ∀ x first last, first ≤ last → last < input.length →
            ∃ best, chart.bestTreeWithSpan x first last = .ok best ∧
              chart.inside first last = .ok (pass.inside first last) ∧
                (best = none ↔ (pass.inside first last).get x = 0) ∧
                  ∀ tree ∈ best, pass.IsBestTree model x first last tree := by
  refine ⟨_, .run model width width_pos input, fillInside_blank model width width_pos
    hinput, rfl, rfl, ?_⟩
  intro x first last hspan hlast
  refine ⟨_, bestTreeWithSpan_insideDone MaximumWeights.selective hspan hlast x, ?_,
    InsidePass.bestTree_run_spec model width width_pos input hpolicy hspan hlast x⟩
  change (do checkSpan input.length first last; pure _) = _
  rw [checkSpan_of_le hspan hlast]
  rfl

/-- One symbol joins with itself and derives a word, or two words at once for more. -/
def compoundModel : Model Nat where
  policy := .scan [⟨⟨0⟩, ⟨0⟩, ⟨0⟩, none⟩]
    [⟨⟨0⟩, [⟨1⟩], none⟩, ⟨⟨0⟩, [⟨1⟩, ⟨1⟩], none⟩]
  ruleWeight := fun rule =>
    if rule = .terminal ⟨⟨0⟩, [⟨1⟩, ⟨1⟩], none⟩ then 5 else 1

/-- Two of three words are best taken at once. -/
theorem bestTree_is_best_derivation_three_words :
    ∃ (chart : Chart (MaxProduct Nat)) (tree : ParseTree (MaxProduct Nat)),
      (blank 3 1 Nat.one_pos).fillInside compoundModel [⟨1⟩, ⟨1⟩, ⟨1⟩] = .ok chart ∧
        chart.bestTreeWithSpan ⟨0⟩ 0 2 = .ok (some tree) ∧
          tree.terminals = [⟨1⟩, ⟨1⟩, ⟨1⟩] ∧ tree.weight = ⟨5⟩ := by
  have hinput : ([⟨1⟩, ⟨1⟩, ⟨1⟩] : List Symbol) ≠ [] := by decide
  obtain ⟨chart, pass, hfill, hpass, hpassInput, hbest⟩ :=
    bestTree_is_best_derivation (S := MaxProduct Nat) compoundModel
      (Policy.scan_lawful (by decide) (by decide)) 1 Nat.one_pos [⟨1⟩, ⟨1⟩, ⟨1⟩] hinput
  obtain ⟨best, hread, _, hnone, htree⟩ := hbest ⟨0⟩ 0 2 (by decide) (by decide)
  have hfilled := fillInside_blank (S := MaxProduct Nat) compoundModel 1 Nat.one_pos
    hinput
  obtain rfl := Except.ok.inj (hfilled.symm.trans hfill)
  obtain rfl := Except.ok.inj hpass
  have hweight : ((InsidePass.run compoundModel 1 Nat.one_pos [⟨1⟩, ⟨1⟩, ⟨1⟩] :
      InsidePass (MaxProduct Nat)).inside 0 2).get ⟨0⟩ = ⟨5⟩ :=
    MaxProduct.ext_value (by decide +kernel)
  cases best with
  | none =>
      have hzero := hnone.mp rfl
      rw [hweight] at hzero
      exact absurd (congrArg MaxProduct.value hzero) (by decide)
  | some tree =>
      have hspec := htree tree rfl
      refine ⟨_, tree, hfill, hread, ?_, ?_⟩
      · exact (Option.some.inj hspec.parse.terminals_eq).symm
      · rw [hspec.weight_eq, hweight]

end Chart

end WeightedParsing
