import WeightedParsing.Proofs.Grammar.Naming
import WeightedParsing.Proofs.Grammar.Reading

/-!
# Grammars built from written rules

A grammar, its symbol table and its weights are filled rule by rule, each with a policy
of its own for what comes again: the table keeps the first number of a name, the grammar
the first place of a rule and the weights the last weight.  One invariant holds all
three together, and a step extends the rules that it speaks of by one.
-/

namespace WeightedParsing

def RightItem.name : RightItem → String
  | symbol name => name
  | word name => name

/-- The names in a written rule: those of the parent and the type, then those of the
right-hand side from left to right. -/
def RuleSpec.occurrences {K : Type} [Scalar K] (spec : RuleSpec K) : List String :=
  spec.parent :: (spec.ruleType.toList ++ spec.right.map RightItem.name)

namespace WeightedGrammar

open GrammarText

variable {K : Type} [Scalar K]

/-- The distinct names of the written rules of one form, as they first come. -/
def distinctNames (terminal : Bool) (specs : List (RuleSpec K)) : List RuleNames :=
  ((specs.map RuleSpec.names).filter fun names => names.isTerminal = terminal).eraseDups

/-- The weight with which a rule is written last. -/
def lastWeight (specs : List (RuleSpec K)) (names : RuleNames) : Option (RuleWeight K) :=
  (specs.reverse.find? fun spec => spec.names = names).map RuleSpec.weight

/-- What a grammar that is built from written rules has of them. -/
structure Holds (weighted : WeightedGrammar K) (specs : List (RuleSpec K)) : Prop where
  indexed : weighted.grammar.Indexed
  numbers : weighted.symbols.Numbers (specs.flatMap RuleSpec.occurrences)
  lists : weighted.Lists (distinctNames false specs) (distinctNames true specs)
  weight_eq : ∀ rule ∈ weighted.grammar.rules, ∀ names,
    rule.HasNames weighted.symbols names →
      weighted.weights.table[rule]? = lastWeight specs names
  weighed_iff : ∀ rule, rule ∈ weighted.weights.table ↔ rule ∈ weighted.grammar.rules

theorem holds_empty : (empty : WeightedGrammar K).Holds [] where
  indexed := .empty
  numbers := SymbolTable.numbers_empty
  lists := ⟨.nil, .nil⟩
  weight_eq := by
    simp [empty, Grammar.empty, Grammar.rules, Grammar.binaryRules, Grammar.terminalRules]
  weighed_iff := by
    simp [empty, RuleWeights.empty, Grammar.empty, Grammar.rules, Grammar.binaryRules,
      Grammar.terminalRules]

theorem mem_distinctNames {terminal : Bool} {specs : List (RuleSpec K)}
    {names : RuleNames} :
    names ∈ distinctNames terminal specs ↔
      names ∈ specs.map RuleSpec.names ∧ names.isTerminal = terminal := by
  rw [distinctNames, List.mem_eraseDups, List.mem_filter, decide_eq_true_iff]

theorem distinctNames_concat (terminal : Bool) (specs : List (RuleSpec K))
    (spec : RuleSpec K) :
    distinctNames terminal (specs ++ [spec]) =
      if spec.names.isTerminal = terminal then
        (((specs.map RuleSpec.names).filter fun names => names.isTerminal = terminal) ++
          [spec.names]).eraseDups
      else distinctNames terminal specs := by
  unfold distinctNames
  rw [List.map_append, List.filter_append]
  split
  · rename_i hform
    simp [hform]
  · rename_i hform
    simp [hform]

theorem lastWeight_concat (specs : List (RuleSpec K)) (spec : RuleSpec K)
    (names : RuleNames) :
    lastWeight (specs ++ [spec]) names =
      if spec.names = names then some spec.weight else lastWeight specs names := by
  unfold lastWeight
  rw [List.reverse_append]
  split
  · rename_i heq
    simp [heq]
  · rename_i hne
    simp [hne]

theorem Lists.addRule {weighted : WeightedGrammar K} {specs : List (RuleSpec K)}
    {symbols : SymbolTable} {spec : RuleSpec K} {rule : Rule}
    (hindexed : weighted.grammar.Indexed) (hsymbols : symbols.Faithful)
    (hlists : { weighted with symbols }.Lists (distinctNames false specs)
      (distinctNames true specs))
    (hrule : rule.HasNames symbols spec.names) :
    ({ weighted with symbols }.addRule rule spec.weight).Lists
      (distinctNames false (specs ++ [spec])) (distinctNames true (specs ++ [spec])) := by
  have hunique : Relator.BiUnique (Rule.HasNames symbols) :=
    ⟨fun _ _ _ h h' => h.rule_eq hsymbols h' rfl, fun _ _ _ => Rule.HasNames.names_eq⟩
  have hform := hrule.isTerminal_eq
  rw [distinctNames_concat, distinctNames_concat, hform]
  cases rule with
  | binary rule =>
      have hbinary : Relator.BiUnique fun rule names =>
          Rule.HasNames symbols (.binary rule) names :=
        ⟨fun _ _ _ h h' => Rule.binary.inj (hunique.1 h h'), fun _ _ _ h h' => hunique.2 h h'⟩
      constructor
      · have hlist := forall₂_eraseDups_concat hbinary hlists.binary hrule
        rw [← hindexed.binaryRules_addBinary] at hlist
        exact hlist
      · have hlist := hlists.terminal
        rw [← Grammar.terminalRules_addBinary _ rule] at hlist
        exact hlist
  | terminal rule =>
      have hterminal : Relator.BiUnique fun rule names =>
          Rule.HasNames symbols (.terminal rule) names :=
        ⟨fun _ _ _ h h' => Rule.terminal.inj (hunique.1 h h'),
          fun _ _ _ h h' => hunique.2 h h'⟩
      constructor
      · have hlist := hlists.binary
        rw [← Grammar.binaryRules_addTerminal _ rule] at hlist
        exact hlist
      · have hlist := forall₂_eraseDups_concat hterminal hlists.terminal hrule
        rw [← hindexed.terminalRules_addTerminal] at hlist
        exact hlist

theorem Holds.addRule {weighted : WeightedGrammar K} {specs : List (RuleSpec K)}
    (h : weighted.Holds specs) {symbols : SymbolTable} {spec : RuleSpec K}
    (hsymbols : symbols.Numbers ((specs ++ [spec]).flatMap RuleSpec.occurrences))
    (hlarger : symbols.Extends weighted.symbols) {rule : Rule}
    (hrule : rule.HasNames symbols spec.names) :
    ({ weighted with symbols }.addRule rule spec.weight).Holds (specs ++ [spec]) where
  indexed := h.indexed.add rule
  numbers := hsymbols
  lists := by
    refine Lists.addRule h.indexed hsymbols.faithful ⟨?_, ?_⟩ hrule
    · exact h.lists.binary.imp fun _ _ => Rule.HasNames.of_extends hlarger
    · exact h.lists.terminal.imp fun _ _ => Rule.HasNames.of_extends hlarger
  weight_eq := by
    intro other hother names hnames
    change (weighted.weights.table.insert rule spec.weight)[other]? = _
    rw [lastWeight_concat, Std.HashMap.getElem?_insert]
    by_cases heq : rule = other
    · subst heq
      rw [hrule.names_eq hnames]
      simp
    · have hne : spec.names ≠ names := fun hc => heq (hrule.rule_eq hsymbols.faithful hnames hc)
      have hold : other ∈ weighted.grammar.rules :=
        (h.indexed.mem_rules_add.mp hother).resolve_right (Ne.symm heq)
      obtain ⟨before, _, hbefore⟩ := h.lists.exists_names hold
      have hsame : before = names := (hbefore.of_extends hlarger).names_eq hnames
      rw [if_neg hne, ← h.weight_eq other hold names (hsame ▸ hbefore)]
      simp [heq]
  weighed_iff := by
    intro other
    change other ∈ weighted.weights.table.insert rule spec.weight ↔
      other ∈ (weighted.grammar.add rule).rules
    rw [Std.HashMap.mem_insert, beq_iff_eq, h.weighed_iff, h.indexed.mem_rules_add,
      or_comm, eq_comm]

theorem numbers_internOption {symbols : SymbolTable} {seen : List String}
    (hsymbols : symbols.Numbers seen) (name : Option String) :
    (internOption name symbols).2.Numbers (seen ++ name.toList) ∧
      (internOption name symbols).2.Extends symbols ∧
      Option.Rel (internOption name symbols).2.Names (internOption name symbols).1 name := by
  cases name with
  | none => exact ⟨(List.append_nil seen).symm ▸ hsymbols, .refl symbols, .none⟩
  | some name =>
      have hname := hsymbols.faithful.intern name
      exact ⟨hsymbols.intern name, hname.larger, .some hname.names⟩

/-- The rule of a written rule has its names, in a table that may have grown by them. -/
theorem resolve_names {symbols larger : SymbolTable} {seen : List String}
    (hsymbols : symbols.Numbers seen) {spec : RuleSpec K} {rule : Rule}
    (h : resolve symbols spec = .ok (rule, larger)) :
    larger.Numbers (seen ++ spec.occurrences) ∧ larger.Extends symbols ∧
      rule.HasNames larger spec.names := by
  obtain ⟨parent, right, ruleType, weight⟩ := spec
  have hparent := hsymbols.faithful.intern parent
  obtain ⟨htypes, hlarger, htype⟩ := numbers_internOption (hsymbols.intern parent) ruleType
  have hbefore := hlarger.trans hparent.larger
  have hseen : seen ++ [parent] ++ ruleType.toList ++ right.map RightItem.name =
      seen ++ parent :: (ruleType.toList ++ right.map RightItem.name) := by simp
  rw [RuleSpec.occurrences, ← hseen]
  unfold resolve at h
  dsimp only at h
  split at h
  · rename_i words hwords
    rw [mapM_eq_some_iff word?_eq_some_iff] at hwords
    subst hwords
    obtain ⟨_, hgrown, hnames⟩ := htypes.faithful.internList words
    cases h
    refine ⟨?_, hgrown.trans hbefore, .terminal (hgrown.names (hlarger.names hparent.names))
      hnames (hgrown.names_option htype)⟩
    have hword : (words.map RightItem.word).map RightItem.name = words := by
      rw [List.map_map]
      exact List.map_id words
    rw [hword]
    exact htypes.internList words
  · rename_i left right _ hitems
    rw [mapM_eq_some_iff symbol?_eq_some_iff] at hitems
    subst hitems
    have hleft := htypes.faithful.intern left
    have hright := hleft.faithful.intern right
    have hgrown := hright.larger.trans hleft.larger
    cases h
    refine ⟨?_, hgrown.trans hbefore, .binary (hgrown.names (hlarger.names hparent.names))
      (hright.larger.names hleft.names) hright.names (hgrown.names_option htype)⟩
    have hboth := (htypes.intern left).intern right
    rwa [List.append_assoc] at hboth
  · contradiction
  · contradiction

theorem Holds.foldlM_addSpec {specs : List (RuleSpec K)} :
    ∀ {weighted result : WeightedGrammar K} {before : List (RuleSpec K)},
      weighted.Holds before → specs.foldlM addSpec weighted = .ok result →
        result.Holds (before ++ specs) := by
  induction specs with
  | nil =>
      intro weighted result before h hresult
      cases hresult
      rwa [List.append_nil]
  | cons spec rest ih =>
      intro weighted result before h hresult
      rw [List.foldlM_cons] at hresult
      cases hspec : resolve weighted.symbols spec with
      | error =>
          simp only [addSpec, hspec, bind, Except.bind] at hresult
          contradiction
      | ok resolved =>
          simp only [addSpec, hspec, bind, Except.bind, pure, Except.pure] at hresult
          obtain ⟨hnumbers, hlarger, hrule⟩ := resolve_names h.numbers hspec
          have hseen : before.flatMap RuleSpec.occurrences ++ spec.occurrences =
              (before ++ [spec]).flatMap RuleSpec.occurrences := by simp
          have hrest := ih (h.addRule (hseen ▸ hnumbers) hlarger hrule) hresult
          rwa [List.append_assoc, List.singleton_append] at hrest

theorem holds_of_ofSpecs {specs : List (RuleSpec K)} {weighted : WeightedGrammar K}
    (h : ofSpecs specs = .ok weighted) : weighted.Holds specs :=
  holds_empty.foldlM_addSpec h

/-! ## What reading a text leaves -/

theorem exists_last_of_mem {specs : List (RuleSpec K)} {names : RuleNames}
    (h : names ∈ specs.map RuleSpec.names) :
    ∃ before spec after, specs = before ++ spec :: after ∧ spec.names = names ∧
      (∀ later ∈ after, later.names ≠ names) ∧
      lastWeight specs names = some spec.weight := by
  induction specs using List.reverseRecOn with
  | nil => simp at h
  | append_singleton specs last ih =>
      rw [lastWeight_concat]
      by_cases hlast : last.names = names
      · exact ⟨specs, last, [], rfl, hlast, by simp, if_pos hlast⟩
      · have hbefore : names ∈ specs.map RuleSpec.names := by
          rw [List.map_append, List.mem_append, List.map_singleton, List.mem_singleton] at h
          exact h.resolve_right (Ne.symm hlast)
        obtain ⟨before, spec, after, rfl, hspec, hafter, hweight⟩ := ih hbefore
        refine ⟨before, spec, after ++ [last], by simp, hspec, ?_, ?_⟩
        · intro later hlater
          rcases List.mem_append.mp hlater with hlater | hlater
          · exact hafter later hlater
          · rwa [List.mem_singleton.mp hlater]
        · rw [if_neg hlast, hweight]

/-- What the symbols, the rules and the weights of a grammar have to do with the written
rules that it was built from. -/
structure InStep (weighted : WeightedGrammar K) (specs : List (RuleSpec K)) : Prop where
  names_eq : weighted.symbols.names.toList =
    (specs.flatMap RuleSpec.occurrences).eraseDups
  names_nodup : weighted.symbols.names.toList.Nodup
  number_iff : ∀ name id, weighted.symbols.get? name = some ⟨id⟩ ↔
    weighted.symbols.names.toList[id]? = some name
  lists : weighted.Lists (distinctNames false specs) (distinctNames true specs)
  rules_nodup : weighted.grammar.rules.Nodup
  weighed_iff : ∀ rule, rule ∈ weighted.weights.table ↔ rule ∈ weighted.grammar.rules
  weight_last : ∀ rule ∈ weighted.grammar.rules, ∃ before spec after,
    specs = before ++ spec :: after ∧ rule.HasNames weighted.symbols spec.names ∧
      (∀ later ∈ after, ¬ rule.HasNames weighted.symbols later.names) ∧
      weighted.weights.table[rule]? = some spec.weight

theorem Holds.inStep {weighted : WeightedGrammar K} {specs : List (RuleSpec K)}
    (h : weighted.Holds specs) : weighted.InStep specs where
  names_eq := h.numbers.names_eq
  names_nodup := h.numbers.names_eq ▸ nodup_eraseDups _
  number_iff := by
    intro name id
    rw [h.numbers.get?_eq_some_iff, h.numbers.names_eq]
  lists := h.lists
  rules_nodup := h.indexed.rules_nodup
  weighed_iff := h.weighed_iff
  weight_last := by
    intro rule hrule
    obtain ⟨names, hnames, hhas⟩ := h.lists.exists_names hrule
    have hmem : names ∈ specs.map RuleSpec.names := by
      rcases List.mem_append.mp hnames with hnames | hnames
      · exact (mem_distinctNames.mp hnames).1
      · exact (mem_distinctNames.mp hnames).1
    obtain ⟨before, spec, after, hspecs, rfl, hafter, hlast⟩ := exists_last_of_mem hmem
    refine ⟨before, spec, after, hspecs, hhas, ?_, ?_⟩
    · intro later hlater hsame
      exact hafter later hlater (hsame.names_eq hhas)
    · rw [h.weight_eq rule hrule _ hhas, hlast]

/-- Reading a text numbers its names by first occurrence, lists its distinct rules by
first occurrence and gives just them weights, each the one that is written last. -/
theorem ofText_keeps_in_step (text : String) (weighted : WeightedGrammar Float)
    (h : ofText text = .ok weighted) :
    ∃ specs, scanRules text.toList = .ok specs ∧ weighted.InStep specs := by
  obtain ⟨specs, hwritten⟩ := exists_written_of_ofText h
  obtain ⟨hscan, hread, _⟩ := ofText_eq_ofSpecs hwritten
  exact ⟨specs, hscan, (holds_of_ofSpecs (hread ▸ h)).inStep⟩

/-- One name is a nonterminal, a word and a type, and a rule is written twice: the table
has one number for the name, and the rule stands once, with the weight one that is not
written the second time. -/
theorem ofText_keeps_in_step_repeated_rule :
    let lexical : TerminalRule := ⟨⟨0⟩, [⟨0⟩], some ⟨0⟩⟩
    ∃ weighted : WeightedGrammar Float,
      ofText "A ->\"A\"<A>:.5;A ->A b;A ->\"A\"<A>;" = .ok weighted ∧
      weighted.symbols.names.toList = ["A", "b"] ∧
      weighted.grammar.rules = [.binary ⟨⟨0⟩, ⟨0⟩, ⟨1⟩, none⟩, .terminal lexical] ∧
      weighted.weights.table[Rule.terminal lexical]? = some defaultWeight := by
  intro lexical
  have hname : IsName "A" := ⟨by decide, by simp; decide⟩
  have hright : IsName "b" := ⟨by decide, by simp; decide⟩
  have hword : IsWord "A" := ⟨by decide, by simp; decide⟩
  have hnumber : Decimal.NumberText.WellFormed ⟨[], some ['5'], none⟩ := by
    refine ⟨by simp, by simp, ?_, by simp⟩
    rintro digits ⟨⟩
    exact ⟨by simp, by simp⟩
  have hgap : ∀ rest : List Char, Gap (' ' :: rest) rest :=
    fun rest => ⟨.blank rfl (.none _), by simp⟩
  have hweight : ∀ rest : List Char, OptionalWeight (':' :: '.' :: '5' :: ';' :: rest)
      ⟨_, Decimal.NumberText.le_toFloat ⟨[], some ['5'], none⟩⟩ (';' :: rest) :=
    fun rest => .written (.none _) hnumber (by decide +kernel) rfl (.none _)
  have hfirst := fun rest => WrittenRule.mk hname (hgap _) (.none _)
    (.words (.last hword)) (.none _)
    (.written (.none _) hname (.none _) (.none _)) (hweight rest)
  have hbinary := fun rest => WrittenRule.mk hname (hgap _) (.none _)
    (.names hname (hgap _) hright) (.none _) (.absent _) (.absent (';' :: rest))
  have hagain := WrittenRule.mk hname (hgap _) (.none _)
    (.words (.last hword)) (.none _)
    (.written (.none _) hname (.none _) (.none _)) (.absent [';'])
  have hwritten : Written "A ->\"A\"<A>:.5;A ->A b;A ->\"A\"<A>;".toList [_, _, _] :=
    ⟨_, .none _, .cons (hfirst _) (.none _) (.cons (hbinary _) (.none _)
      (.last hagain (.none _)))⟩
  obtain ⟨hscan, hread, weighted, hweighted⟩ := ofText_eq_ofSpecs hwritten
  obtain ⟨specs, hspecs, hstep⟩ := ofText_keeps_in_step _ weighted hweighted
  rw [hscan] at hspecs
  cases hspecs
  have hnames : weighted.symbols.names.toList = ["A", "b"] := hstep.names_eq
  have hzero : weighted.symbols.Names ⟨0⟩ "A" := by
    rw [SymbolTable.Names, SymbolTable.name?, ← Array.getElem?_toList, hnames]
    rfl
  have hone : weighted.symbols.Names ⟨1⟩ "b" := by
    rw [SymbolTable.Names, SymbolTable.name?, ← Array.getElem?_toList, hnames]
    rfl
  have hlexical : Rule.HasNames weighted.symbols (.terminal lexical)
      ⟨"A", [.word "A"], some "A"⟩ := .terminal hzero (.cons hzero .nil) (.some hzero)
  have hsplit : Rule.HasNames weighted.symbols (.binary ⟨⟨0⟩, ⟨0⟩, ⟨1⟩, none⟩)
      ⟨"A", [.symbol "A", .symbol "b"], none⟩ := .binary hzero hzero hone .none
  have hfaithful := (holds_of_ofSpecs (hread ▸ hweighted)).numbers.faithful
  have hrules : weighted.grammar.rules =
      [.binary ⟨⟨0⟩, ⟨0⟩, ⟨1⟩, none⟩, .terminal lexical] := by
    have hlisted : List.Forall₂ (Rule.HasNames weighted.symbols) weighted.grammar.rules
        [⟨"A", [.symbol "A", .symbol "b"], none⟩, ⟨"A", [.word "A"], some "A"⟩] :=
      hstep.lists.rules
    have hunique : Relator.LeftUnique (Rule.HasNames weighted.symbols) :=
      fun _ _ _ h h' => h.rule_eq hfaithful h' rfl
    exact hunique.forall₂ hlisted (.cons hsplit (.cons hlexical .nil))
  refine ⟨weighted, hweighted, hnames, hrules, ?_⟩
  obtain ⟨before, spec, after, hspecs, hspec, hlater, hlast⟩ :=
    hstep.weight_last (.terminal lexical) (by simp [hrules])
  rw [hlast]
  -- The first of the three rules has a later one of its names, the second other names.
  rcases before with _ | ⟨first, _ | ⟨second, _ | ⟨third, before⟩⟩⟩
  · obtain ⟨rfl, rfl⟩ := List.cons.inj hspecs
    exact absurd hlexical (hlater _ (List.mem_cons_of_mem _ List.mem_cons_self))
  · obtain ⟨-, hrest⟩ := List.cons.inj hspecs
    obtain ⟨rfl, rfl⟩ := List.cons.inj hrest
    exact absurd hspec.isTerminal_eq (by decide)
  · obtain ⟨-, hrest⟩ := List.cons.inj hspecs
    obtain ⟨-, hrest⟩ := List.cons.inj hrest
    obtain ⟨rfl, rfl⟩ := List.cons.inj hrest
    rfl
  · simp at hspecs

end WeightedGrammar

end WeightedParsing
