import WeightedParsing.Grammar.Weighted
import WeightedParsing.Proofs.Grammar.Index
import WeightedParsing.Proofs.Symbol

/-!
# The rules of a grammar by their names

Which number a symbol has depends on what was read before it; its name does not.  In a
table that keeps names and numbers together, a rule is determined by the names of its
symbols, and a table that grows changes nothing about them.
-/

namespace WeightedParsing

/-- A rule by the names of its symbols. -/
structure RuleNames where
  parent : String
  right : List RightItem
  ruleType : Option String
deriving DecidableEq, Repr

def RuleNames.isTerminal (names : RuleNames) : Bool :=
  names.right.all fun item => item.word?.isSome

def RuleSpec.names {K : Type} [Scalar K] (spec : RuleSpec K) : RuleNames :=
  ⟨spec.parent, spec.right, spec.ruleType⟩

/-- Whether a rule has the given names in a symbol table. -/
inductive Rule.HasNames (symbols : SymbolTable) : Rule → RuleNames → Prop where
  | binary {parent left right : Symbol} {ruleType : Option Symbol}
      {parentName leftName rightName : String} {typeName : Option String} :
      symbols.Names parent parentName → symbols.Names left leftName →
      symbols.Names right rightName → Option.Rel symbols.Names ruleType typeName →
      HasNames symbols (.binary ⟨parent, left, right, ruleType⟩)
        ⟨parentName, [.symbol leftName, .symbol rightName], typeName⟩
  | terminal {parent : Symbol} {words : List Symbol} {ruleType : Option Symbol}
      {parentName : String} {wordNames : List String} {typeName : Option String} :
      symbols.Names parent parentName → List.Forall₂ symbols.Names words wordNames →
      Option.Rel symbols.Names ruleType typeName →
      HasNames symbols (.terminal ⟨parent, words, ruleType⟩)
        ⟨parentName, wordNames.map .word, typeName⟩

theorem rightUnique_optionRel {α β : Type} {r : α → β → Prop}
    (h : Relator.RightUnique r) : Relator.RightUnique (Option.Rel r) := by
  rintro _ _ _ (hab | _) (hab' | _)
  · exact congrArg some (h ‹_› ‹_›)
  · rfl

theorem leftUnique_optionRel {α β : Type} {r : α → β → Prop}
    (h : Relator.LeftUnique r) : Relator.LeftUnique (Option.Rel r) := by
  rintro _ _ _ (hab | _) (hab' | _)
  · exact congrArg some (h ‹_› ‹_›)
  · rfl

namespace Rule.HasNames

variable {symbols : SymbolTable} {rule rule' : Rule} {names names' : RuleNames}

theorem isTerminal_eq (h : rule.HasNames symbols names) :
    names.isTerminal = rule.isTerminal := by
  cases h with
  | binary => rfl
  | terminal =>
      simp [RuleNames.isTerminal, RightItem.word?, Rule.isTerminal, Rule.terminal?]

theorem of_extends {larger : SymbolTable} (hlarger : larger.Extends symbols)
    (h : rule.HasNames symbols names) : rule.HasNames larger names := by
  cases h with
  | binary hparent hleft hright hruleType =>
      exact .binary (hlarger.names hparent) (hlarger.names hleft)
        (hlarger.names hright) (hlarger.names_option hruleType)
  | terminal hparent hwords hruleType =>
      exact .terminal (hlarger.names hparent) (hwords.imp fun _ _ => hlarger.names)
        (hlarger.names_option hruleType)

/-- A rule has no other names. -/
theorem names_eq (h : rule.HasNames symbols names) (h' : rule.HasNames symbols names') :
    names = names' := by
  have hunique := symbols.rightUnique_names
  have htypes := rightUnique_optionRel hunique
  cases h with
  | binary hparent hleft hright hruleType =>
      cases h' with
      | binary hparent' hleft' hright' hruleType' =>
          rw [hunique hparent hparent', hunique hleft hleft', hunique hright hright',
            htypes hruleType hruleType']
  | terminal hparent hwords hruleType =>
      cases h' with
      | terminal hparent' hwords' hruleType' =>
          rw [hunique hparent hparent', hunique.forall₂ hwords hwords',
            htypes hruleType hruleType']

/-- No other rule has the names. -/
theorem rule_eq (hsymbols : symbols.Faithful) (h : rule.HasNames symbols names)
    (h' : rule'.HasNames symbols names') (heq : names = names') : rule = rule' := by
  have hunique := hsymbols.leftUnique_names
  have htypes := leftUnique_optionRel hunique
  have hform := h.isTerminal_eq.symm.trans (heq ▸ h'.isTerminal_eq)
  cases h with
  | binary hparent hleft hright hruleType =>
      cases h' with
      | binary hparent' hleft' hright' hruleType' =>
          simp only [RuleNames.mk.injEq, List.cons.injEq, RightItem.symbol.injEq,
            and_true] at heq
          obtain ⟨rfl, ⟨rfl, rfl⟩, rfl⟩ := heq
          rw [hunique hparent hparent', hunique hleft hleft', hunique hright hright',
            htypes hruleType hruleType']
      | terminal => contradiction
  | terminal hparent hwords hruleType =>
      cases h' with
      | binary => contradiction
      | terminal hparent' hwords' hruleType' =>
          have hword : Function.Injective RightItem.word := fun _ _ => RightItem.word.inj
          rw [RuleNames.mk.injEq, (List.map_injective_iff.mpr hword).eq_iff] at heq
          obtain ⟨rfl, rfl, rfl⟩ := heq
          rw [hunique hparent hparent', hunique.forall₂ hwords hwords',
            htypes hruleType hruleType']

end Rule.HasNames

namespace WeightedGrammar

variable {K : Type} [Scalar K]

/-- Whether a grammar lists exactly the rules of the given names, in this order. -/
structure Lists (weighted : WeightedGrammar K) (binary terminal : List RuleNames) :
    Prop where
  binary : List.Forall₂ (fun rule => Rule.HasNames weighted.symbols (.binary rule))
    weighted.grammar.binaryRules binary
  terminal : List.Forall₂ (fun rule => Rule.HasNames weighted.symbols (.terminal rule))
    weighted.grammar.terminalRules terminal

theorem Lists.rules {weighted : WeightedGrammar K} {binary terminal : List RuleNames}
    (h : weighted.Lists binary terminal) :
    List.Forall₂ (Rule.HasNames weighted.symbols) weighted.grammar.rules
      (binary ++ terminal) := by
  refine List.rel_append ?_ ?_
  · exact List.forall₂_map_left_iff.mpr h.binary
  · exact List.forall₂_map_left_iff.mpr h.terminal

theorem Lists.exists_names {weighted : WeightedGrammar K}
    {binary terminal : List RuleNames} (h : weighted.Lists binary terminal) {rule : Rule}
    (hrule : rule ∈ weighted.grammar.rules) :
    ∃ names ∈ binary ++ terminal, rule.HasNames weighted.symbols names :=
  exists_mem_of_forall₂ h.rules hrule

end WeightedGrammar

end WeightedParsing
