import Mathlib.Algebra.Order.BigOperators.Group.List
import WeightedParsing.Proofs.Beam.Exactness

/-!
# Wider beams

A wider beam holds more partial trees of the narrow spans, and what they combine to
competes for room in the wider ones, whatever its root.  It may crowd out the only partial
tree that the whole input needs, so that a wider beam finds less than a narrower one.  This
ends once beams are wide enough to be exact: beams that are wider still are exact too, and
no beam finds anything better than an exact one does.
-/

namespace WeightedParsing

namespace BeamChart

section Run

variable {K S : Type} [WeightAlgebra K S] [IntegralWeights K S] [TotallyRanked S]
  (model : Model K) (input : List Symbol)

theorem isExact_run_mono (hpolicy : model.policy.Lawful) {beamSize wider : Nat}
    (beamSize_pos : 0 < beamSize) (wider_pos : 0 < wider) (hle : beamSize ≤ wider)
    (hexact : (run model beamSize beamSize_pos input : BeamChart S).isExact = true) :
    (run model wider wider_pos input : BeamChart S).isExact = true := by
  rw [isExact_run_iff model wider wider_pos input hpolicy]
  intro first last hspan hlast
  exact Nat.le_trans
    ((isExact_run_iff model beamSize beamSize_pos input hpolicy).mp hexact first last hspan
      hlast) hle

theorem exists_isExact_run (hpolicy : model.policy.Lawful) :
    ∃ (beamSize : Nat) (beamSize_pos : 0 < beamSize),
      (run model beamSize beamSize_pos input : BeamChart S).isExact = true := by
  refine ⟨((spansWidening input.length).map fun span =>
    (weightedDerivationsOver S model input span.1 span.2).length).sum + 1,
    Nat.succ_pos _, ?_⟩
  rw [isExact_run_iff _ _ _ _ hpolicy]
  intro first last hspan hlast
  have hmem : (weightedDerivationsOver S model input first last).length ∈
      (spansWidening input.length).map fun span =>
        (weightedDerivationsOver S model input span.1 span.2).length :=
    List.mem_map.mpr ⟨(first, last), mem_spansWidening.mpr ⟨hspan, hlast⟩, rfl⟩
  exact Nat.le_succ_of_le (List.single_le_sum (fun _ _ => Nat.zero_le _) _ hmem)

variable [Scalar K]

theorem exists_trees_of_isExact (hpolicy : model.policy.Lawful) {beamSize wider : Nat}
    (beamSize_pos : 0 < beamSize) (wider_pos : 0 < wider)
    (hexact : (run model wider wider_pos input : BeamChart S).isExact = true)
    (prior : RootPrior K) {tree : ParseTree S} {rest : List (ParseTree S)}
    (hfirst : (run model beamSize beamSize_pos input : BeamChart S).trees prior =
      tree :: rest) :
    ∃ best others,
      (run model wider wider_pos input : BeamChart S).trees prior = best :: others ∧
        Ranked.le tree.weight best.weight = true := by
  by_cases hinput : input = []
  · subst hinput
    rw [trees_eq_nil rfl prior] at hfirst
    cases hfirst
  · obtain ⟨kept, htrees, _, hkept, _⟩ :=
      exists_trees_run_eq (S := S) model beamSize beamSize_pos input hpolicy hinput prior
    obtain ⟨derivations, htrees', hlisting, hsorted⟩ := exists_trees_run_of_isExact (S := S)
      model wider wider_pos input hpolicy hinput hexact prior
    rw [htrees, List.map_eq_cons_iff] at hfirst
    obtain ⟨d, _, rfl, rfl, rfl⟩ := hfirst
    have hd := (hlisting.mem_iff d).mpr (hkept d List.mem_cons_self)
    cases derivations with
    | nil => cases hd
    | cons best others =>
        refine ⟨_, _, htrees', ?_⟩
        rw [Derivation.weight_treeUnder, Derivation.weight_treeUnder]
        exact hsorted.le_head hd

/-- Beams that are wide enough are exact, and an exact beam finds something if any beam
does, and nothing worse. -/
theorem exact_beams_do_best (hpolicy : model.policy.Lawful) :
    (∃ enough, ∀ (beamSize : Nat) (beamSize_pos : 0 < beamSize), enough ≤ beamSize →
      (run model beamSize beamSize_pos input : BeamChart S).isExact = true) ∧
    ∀ (prior : RootPrior K) (beamSize wider : Nat) (beamSize_pos : 0 < beamSize)
      (wider_pos : 0 < wider),
      (run model wider wider_pos input : BeamChart S).isExact = true →
        ∀ tree rest, (run model beamSize beamSize_pos input : BeamChart S).trees prior =
            tree :: rest →
          ∃ best others,
            (run model wider wider_pos input : BeamChart S).trees prior =
                best :: others ∧
              Ranked.le tree.weight best.weight = true := by
  constructor
  · obtain ⟨enough, enough_pos, hexact⟩ := exists_isExact_run (S := S) model input hpolicy
    refine ⟨enough, ?_⟩
    intro beamSize beamSize_pos hle
    exact isExact_run_mono model input hpolicy enough_pos beamSize_pos hle hexact
  · intro prior beamSize wider beamSize_pos wider_pos hexact tree rest hfirst
    exact exists_trees_of_isExact model input hpolicy beamSize_pos wider_pos hexact prior
      hfirst

end Run

/-! ## A wider beam that finds less -/

/-- Only `7` is joined to the whole of `1 2 3`, and only over a `4`.  A lighter `5` over
the first word makes two heavier partial trees of the first two words. -/
def crowdedModel : Model Nat where
  policy := .scan
    [⟨⟨7⟩, ⟨4⟩, ⟨6⟩, none⟩, ⟨⟨8⟩, ⟨5⟩, ⟨6⟩, none⟩, ⟨⟨9⟩, ⟨5⟩, ⟨6⟩, none⟩,
      ⟨⟨10⟩, ⟨7⟩, ⟨11⟩, none⟩]
    [⟨⟨4⟩, [⟨1⟩], none⟩, ⟨⟨5⟩, [⟨1⟩], none⟩, ⟨⟨6⟩, [⟨2⟩], none⟩, ⟨⟨11⟩, [⟨3⟩], none⟩]
  ruleWeight := fun rule =>
    if rule.parent = ⟨4⟩ then 2
    else if rule.parent = ⟨8⟩ ∨ rule.parent = ⟨9⟩ then 3
    else 1

/-- A beam of one finds the tree of the three words, and a beam of two has no room for
the partial tree that it needs. -/
theorem wider_beam_finds_nothing :
    crowdedModel.policy.Lawful ∧
      ((run crowdedModel 1 (by decide) [⟨1⟩, ⟨2⟩, ⟨3⟩] :
        BeamChart (MaxProduct Nat)).trees .uniform).map (fun tree => tree.weight.value) =
          [2] ∧
      (run crowdedModel 2 (by decide) [⟨1⟩, ⟨2⟩, ⟨3⟩] :
        BeamChart (MaxProduct Nat)).trees .uniform = [] := by
  refine ⟨Policy.scan_lawful (by decide) (by decide), by decide +kernel, ?_⟩
  rw [← List.length_eq_zero_iff]
  decide +kernel

/-- A beam of three is exact for these words and finds their tree again. -/
theorem exact_beams_do_best_three_words :
    ∃ best others,
      (run crowdedModel 3 (by decide) [⟨1⟩, ⟨2⟩, ⟨3⟩] :
        BeamChart (MaxProduct Nat)).trees .uniform = best :: others ∧
        Ranked.le ⟨2⟩ best.weight = true := by
  obtain ⟨_, hbest⟩ := exact_beams_do_best (S := MaxProduct Nat) crowdedModel
    [⟨1⟩, ⟨2⟩, ⟨3⟩] (Policy.scan_lawful (by decide) (by decide))
  have hweights : ((run crowdedModel 1 (by decide) [⟨1⟩, ⟨2⟩, ⟨3⟩] :
      BeamChart (MaxProduct Nat)).trees .uniform).map (fun tree => tree.weight.value) =
        [2] := by
    decide +kernel
  obtain ⟨tree, rest, hfirst, hweight, _⟩ := List.map_eq_cons_iff.mp hweights
  obtain ⟨best, others, htrees, hle⟩ := hbest .uniform 1 3 (by decide) (by decide)
    (by decide +kernel) tree rest hfirst
  have htree : tree.weight = ⟨2⟩ := MaxProduct.ext_value hweight
  rw [htree] at hle
  exact ⟨best, others, htrees, hle⟩

end BeamChart

end WeightedParsing
