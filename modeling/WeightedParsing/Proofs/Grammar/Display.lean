import WeightedParsing.Proofs.Grammar.Building

/-!
# Reading a displayed grammar back

A grammar displays its rules by name, one to a line and without their weights: first the
binary rules and then the terminal ones.  That text is written in the format of grammar
texts again.  Reading it numbers the symbols anew, but gives the same rules in the same
order, which are then displayed alike.
-/

namespace WeightedParsing

/-! ## The text of a rule -/

def RightItem.text : RightItem → String
  | symbol name => " " ++ name
  | word name => " \"" ++ name ++ "\""

def RuleNames.typeText : Option String → String
  | some name => " <" ++ name ++ ">"
  | none => ""

/-- The written form of a rule with the given names. -/
def RuleNames.text (names : RuleNames) : String :=
  names.parent ++ " ->" ++ String.join (names.right.map RightItem.text) ++
    typeText names.ruleType

/-- The written forms of rules, each on a line of its own. -/
def RuleNames.listing (list : List RuleNames) : String :=
  String.join (list.map fun names => names.text ++ ";\n")

theorem map_eq_map_of_forall₂ {α β γ : Type} {f : α → γ} {g : β → γ} {as : List α}
    {bs : List β} (h : List.Forall₂ (fun a b => f a = g b) as bs) : as.map f = bs.map g := by
  induction h with
  | nil => rfl
  | cons heq _ ih => rw [List.map_cons, List.map_cons, heq, ih]

theorem typeText_eq {symbols : SymbolTable} {ruleType : Option Symbol}
    {typeName : Option String} (h : Option.Rel symbols.Names ruleType typeName) :
    typeText symbols ruleType = RuleNames.typeText typeName := by
  cases h with
  | some h => rw [typeText, RuleNames.typeText, h.text_eq]
  | none => rfl

theorem quotedWords_eq {symbols : SymbolTable} {words : List Symbol} {names : List String}
    (h : List.Forall₂ symbols.Names words names) :
    quotedWords symbols words = String.join ((names.map .word).map RightItem.text) := by
  rw [quotedWords, List.map_map]
  refine congrArg String.join (map_eq_map_of_forall₂ (h.imp fun word name hname => ?_))
  rw [Function.comp_apply, RightItem.text, hname.text_eq]

theorem Rule.HasNames.text_eq {symbols : SymbolTable} {rule : Rule} {names : RuleNames}
    (h : rule.HasNames symbols names) : rule.text symbols = names.text := by
  cases h with
  | binary hparent hleft hright hruleType =>
      simp only [Rule.text, BinaryRule.text, RuleNames.text, hparent.text_eq, hleft.text_eq,
        hright.text_eq, typeText_eq hruleType, List.map_cons, List.map_nil, RightItem.text]
      simp [← String.toList_inj]
  | terminal hparent hwords hruleType =>
      simp only [Rule.text, TerminalRule.text, RuleNames.text, hparent.text_eq,
        quotedWords_eq hwords, typeText_eq hruleType]

theorem WeightedGrammar.Lists.text_eq {K : Type} [Scalar K] {weighted : WeightedGrammar K}
    {binary terminal : List RuleNames} (h : weighted.Lists binary terminal) :
    weighted.grammar.text weighted.symbols = RuleNames.listing (binary ++ terminal) := by
  have hlines : weighted.grammar.rules.map (fun rule => rule.text weighted.symbols ++ ";\n") =
      (binary ++ terminal).map fun names => names.text ++ ";\n" :=
    map_eq_map_of_forall₂ (h.rules.imp fun rule names hnames => by rw [hnames.text_eq])
  rw [Grammar.text, RuleNames.listing, ← hlines, Grammar.rules, List.map_append,
    List.map_map, List.map_map]
  rfl

/-! ## The text is written in the format -/

open GrammarText

/-- The names that a rule of a grammar text can have. -/
structure RuleNames.Writable (names : RuleNames) : Prop where
  parent : IsName names.parent
  right : (∃ words : List String, words ≠ [] ∧ (∀ word ∈ words, IsWord word) ∧
      names.right = words.map .word) ∨
    ∃ left' right', IsName left' ∧ IsName right' ∧
      names.right = [.symbol left', .symbol right']
  ruleType : ∀ name ∈ names.ruleType, IsName name

theorem GrammarText.Words.writable {text rest : List Char} {items : List RightItem}
    (h : Words text items rest) :
    ∃ words : List String, words ≠ [] ∧ (∀ word ∈ words, IsWord word) ∧
      items = words.map .word := by
  induction h with
  | @last word _ hword => exact ⟨[word], by simp, by simpa using hword, rfl⟩
  | @cons word _ _ _ _ hword _ _ ih =>
      obtain ⟨words, _, hwords, rfl⟩ := ih
      exact ⟨word :: words, by simp, List.forall_mem_cons.mpr ⟨hword, hwords⟩, rfl⟩

theorem GrammarText.WrittenRule.writable {text rest : List Char} {spec : RuleSpec Float}
    (h : WrittenRule text spec rest) : spec.names.Writable := by
  cases h with
  | mk hparent _ _ hright _ htype _ =>
      refine ⟨hparent, ?_, ?_⟩
      · cases hright with
        | names hleft _ hright => exact .inr ⟨_, _, hleft, hright, rfl⟩
        | words hwords => exact .inl hwords.writable
      · cases htype with
        | absent => simp [RuleSpec.names]
        | written _ hname => simpa [RuleSpec.names] using hname

theorem GrammarText.WrittenRules.writable {text : List Char}
    {specs : List (RuleSpec Float)} (h : WrittenRules text specs) :
    ∀ spec ∈ specs, spec.names.Writable := by
  induction h with
  | last hrule => simpa using hrule.writable
  | cons hrule _ _ ih => exact List.forall_mem_cons.mpr ⟨hrule.writable, ih⟩

/-- A written rule of the given names, with the weight of a rule that states none. -/
def RuleNames.spec (names : RuleNames) : RuleSpec Float :=
  ⟨names.parent, names.right, names.ruleType, defaultWeight⟩

theorem words_text {words : List String} (hne : words ≠ [])
    (hwords : ∀ word ∈ words, IsWord word) (rest : List Char) :
    ∃ start, (String.join ((words.map .word).map RightItem.text)).toList ++ rest =
        ' ' :: start ∧ Words start (words.map .word) rest := by
  induction words with
  | nil => contradiction
  | cons word words ih =>
      rw [List.forall_mem_cons] at hwords
      cases words with
      | nil => exact ⟨quoted word rest, by simp [RightItem.text, quoted], .last hwords.1⟩
      | cons second words =>
          obtain ⟨next, htext, hnext⟩ := ih (by simp) hwords.2
          refine ⟨quoted word (' ' :: next), ?_, .cons hwords.1 (.blank rfl (.none _)) hnext⟩
          rw [← htext]
          simp [RightItem.text, quoted]

theorem RuleNames.Writable.rightSide {names : RuleNames} (h : names.Writable)
    (rest : List Char) :
    ∃ start, (String.join (names.right.map RightItem.text)).toList ++ rest = ' ' :: start ∧
      RightSide start names.right rest := by
  rcases h.right with ⟨words, hne, hwords, hright⟩ | ⟨left', right', hleft, hright', hright⟩
  · rw [hright]
    obtain ⟨start, htext, hstart⟩ := words_text hne hwords rest
    exact ⟨start, htext, .words hstart⟩
  · rw [hright]
    refine ⟨left'.toList ++ ' ' :: (right'.toList ++ rest), by simp [RightItem.text], ?_⟩
    exact .names hleft ⟨.blank rfl (.none _), by simp⟩ hright'

/-- The text of a rule is written as the rule, up to the semicolon. -/
theorem RuleNames.Writable.writtenRule {names : RuleNames} (h : names.Writable)
    (rest : List Char) : WrittenRule (names.text.toList ++ ';' :: rest) names.spec rest := by
  obtain ⟨parent, right, ruleType⟩ := names
  have hgap : ∀ next : List Char, Gap (' ' :: '-' :: '>' :: next) ('-' :: '>' :: next) :=
    fun next => ⟨.blank rfl (.none _), by simp⟩
  cases ruleType with
  | none =>
      obtain ⟨start, htext, hright⟩ := h.rightSide (';' :: rest)
      have hrule := WrittenRule.mk h.parent (hgap (' ' :: start)) (.blank rfl (.none _)) hright
        (.none _) (.absent _) (.absent _)
      rw [← htext] at hrule
      simpa [RuleNames.text, RuleNames.typeText, RuleNames.spec] using hrule
  | some name =>
      have htype : OptionalType ('<' :: (name.toList ++ '>' :: ';' :: rest)) (some name)
          (';' :: rest) := .written (.none _) (h.ruleType name rfl) (.none _) (.none _)
      obtain ⟨start, htext, hright⟩ :=
        h.rightSide (' ' :: '<' :: (name.toList ++ '>' :: ';' :: rest))
      have hrule := WrittenRule.mk h.parent (hgap (' ' :: start)) (.blank rfl (.none _)) hright
        (.blank rfl (.none _)) htype (.absent _)
      rw [← htext] at hrule
      simpa [RuleNames.text, RuleNames.typeText, RuleNames.spec] using hrule

theorem writtenRules_listing {list : List RuleNames} (hne : list ≠ [])
    (h : ∀ names ∈ list, names.Writable) :
    WrittenRules (RuleNames.listing list).toList (list.map RuleNames.spec) := by
  induction list with
  | nil => contradiction
  | cons names rest ih =>
      rw [List.forall_mem_cons] at h
      have htext : (RuleNames.listing (names :: rest)).toList =
          names.text.toList ++ ';' :: '\n' :: (RuleNames.listing rest).toList := by
        simp [RuleNames.listing]
      rw [htext]
      cases rest with
      | nil => exact .last (h.1.writtenRule _) (.blank rfl (.none _))
      | cons second rest =>
          exact .cons (h.1.writtenRule _) (.blank rfl (.none _)) (ih (by simp) h.2)

/-! ## Reading the text back -/

namespace WeightedGrammar

/-- The rules of the text that a grammar displays. -/
def displayed (specs : List (RuleSpec Float)) : List (RuleSpec Float) :=
  (distinctNames false specs ++ distinctNames true specs).map RuleNames.spec

/-- Listing the distinct rules of both forms again changes nothing about them. -/
theorem distinctNames_displayed (terminal : Bool) (specs : List (RuleSpec Float)) :
    distinctNames terminal (displayed specs) = distinctNames terminal specs := by
  have hform : ∀ form, (distinctNames form specs).filter
      (fun names => names.isTerminal = terminal) =
        if form = terminal then distinctNames terminal specs else [] := by
    intro form
    split
    · rename_i heq
      subst heq
      exact List.filter_eq_self.mpr fun names hnames => by
        simpa using (mem_distinctNames.mp hnames).2
    · rename_i hne
      refine List.filter_eq_nil_iff.mpr fun names hnames => ?_
      simpa [(mem_distinctNames.mp hnames).2] using hne
  have hnames : RuleSpec.names ∘ RuleNames.spec = id := rfl
  conv_lhs => rw [distinctNames, displayed]
  rw [List.map_map, hnames, List.map_id, List.filter_append, hform, hform]
  cases terminal
  · rw [if_pos rfl, if_neg (by decide), List.append_nil]
    exact eraseDups_eraseDups _
  · rw [if_neg (by decide), if_pos rfl, List.nil_append]
    exact eraseDups_eraseDups _

theorem lastWeight_of_forall {K : Type} [Scalar K] {specs : List (RuleSpec K)}
    {weight : RuleWeight K} (h : ∀ spec ∈ specs, spec.weight = weight) {names : RuleNames}
    (hnames : names ∈ specs.map RuleSpec.names) :
    lastWeight specs names = some weight := by
  obtain ⟨spec, hspec, rfl⟩ := List.mem_map.mp hnames
  unfold lastWeight
  cases hfind : specs.reverse.find? fun other => other.names = spec.names with
  | none =>
      rw [List.find?_eq_none] at hfind
      exact absurd (decide_eq_true rfl) (hfind spec (List.mem_reverse.mpr hspec))
  | some found =>
      have hfound := List.mem_reverse.mp (List.mem_of_find?_eq_some hfind)
      rw [Option.map_some, h found hfound]

theorem written_displayed {text : String} {specs : List (RuleSpec Float)}
    (h : Written text.toList specs) {weighted : WeightedGrammar Float}
    (hweighted : weighted.Holds specs) :
    Written (weighted.grammar.text weighted.symbols).toList (displayed specs) := by
  obtain ⟨start, _, hrules⟩ := h
  have hmem : ∀ names, names ∈ distinctNames false specs ++ distinctNames true specs ↔
      names ∈ specs.map RuleSpec.names := by
    intro names
    rw [List.mem_append, mem_distinctNames, mem_distinctNames]
    cases names.isTerminal <;> simp
  have hne : distinctNames false specs ++ distinctNames true specs ≠ [] := by
    obtain ⟨spec, hspec⟩ := List.exists_mem_of_ne_nil _ hrules.fits.1
    exact List.ne_nil_of_mem ((hmem _).mpr (List.mem_map_of_mem hspec))
  have hwritable : ∀ names ∈ distinctNames false specs ++ distinctNames true specs,
      names.Writable := by
    intro names hnames
    obtain ⟨spec, hspec, rfl⟩ := List.mem_map.mp ((hmem _).mp hnames)
    exact hrules.writable spec hspec
  rw [hweighted.lists.text_eq]
  exact ⟨_, .none _, writtenRules_listing hne hwritable⟩

/-- What a grammar displays is accepted again, as the same rules in the same order, each
with weight one, and is then displayed alike. -/
theorem ofText_text_keeps_rules (text : String) (weighted : WeightedGrammar Float)
    (h : ofText text = .ok weighted) :
    ∃ again binary terminal,
      ofText (weighted.grammar.text weighted.symbols) = .ok again ∧
      weighted.Lists binary terminal ∧ again.Lists binary terminal ∧
      again.grammar.text again.symbols = weighted.grammar.text weighted.symbols ∧
      ∀ rule ∈ again.grammar.rules, again.weights.get rule = 1 := by
  obtain ⟨specs, hwritten⟩ := exists_written_of_ofText h
  rw [(ofText_eq_ofSpecs hwritten).2.1] at h
  have hholds := holds_of_ofSpecs h
  obtain ⟨_, hread, again, hagain⟩ :=
    ofText_eq_ofSpecs (written_displayed hwritten hholds)
  have hholds' := holds_of_ofSpecs (hread ▸ hagain)
  have hlists := hholds'.lists
  rw [distinctNames_displayed, distinctNames_displayed] at hlists
  refine ⟨again, _, _, hagain, hholds.lists, hlists, ?_, ?_⟩
  · rw [hlists.text_eq, hholds.lists.text_eq]
  · intro rule hrule
    obtain ⟨names, hnames, hrule'⟩ := hlists.exists_names hrule
    have hweight : lastWeight (displayed specs) names = some defaultWeight := by
      refine lastWeight_of_forall ?_ ?_
      · intro spec hspec
        obtain ⟨_, _, rfl⟩ := List.mem_map.mp hspec
        rfl
      · exact List.mem_map.mpr ⟨names.spec, List.mem_map_of_mem hnames, rfl⟩
    rw [RuleWeights.get, hholds'.weight_eq rule hrule names hrule', hweight]
    rfl

/-- The binary rule moves to the front, the name that ends in a hyphen stays apart from
the arrow, and a word may hold what would end a rule or begin a comment elsewhere. -/
theorem ofText_text_keeps_rules_hyphen :
    ∃ weighted again : WeightedGrammar Float,
      ofText "A- ->\"//;\"<A->:.5;S ->A- A-;" = .ok weighted ∧
      weighted.grammar.text weighted.symbols = "S -> A- A-;\nA- -> \"//;\" <A->;\n" ∧
      ofText "S -> A- A-;\nA- -> \"//;\" <A->;\n" = .ok again ∧
      again.grammar.text again.symbols = "S -> A- A-;\nA- -> \"//;\" <A->;\n" := by
  have hname : IsName "A-" := ⟨by decide, by simp; decide⟩
  have hroot : IsName "S" := ⟨by decide, by simp; decide⟩
  have hword : IsWord "//;" := ⟨by decide, by simp; decide⟩
  have hnumber : Decimal.NumberText.WellFormed ⟨[], some ['5'], none⟩ := by
    refine ⟨by simp, by simp, ?_, by simp⟩
    rintro digits ⟨⟩
    exact ⟨by simp, by simp⟩
  have hgap : ∀ rest : List Char, Gap (' ' :: rest) rest :=
    fun rest => ⟨.blank rfl (.none _), by simp⟩
  have hweight : ∀ rest : List Char, OptionalWeight (':' :: '.' :: '5' :: ';' :: rest)
      ⟨_, Decimal.NumberText.le_toFloat ⟨[], some ['5'], none⟩⟩ (';' :: rest) :=
    fun rest => .written (.none _) hnumber (by decide +kernel) rfl (.none _)
  have hlexical := fun rest => WrittenRule.mk hname (hgap _) (.none _)
    (.words (.last hword)) (.none _)
    (.written (.none _) hname (.none _) (.none _)) (hweight rest)
  have hbinary := WrittenRule.mk hroot (hgap _) (.none _)
    (.names hname (hgap _) hname) (.none _) (.absent _) (.absent [';'])
  have hwritten : Written "A- ->\"//;\"<A->:.5;S ->A- A-;".toList [_, _] :=
    ⟨_, .none _, .cons (hlexical _) (.none _) (.last hbinary (.none _))⟩
  obtain ⟨_, hread, weighted, hweighted⟩ := ofText_eq_ofSpecs hwritten
  have htext := (holds_of_ofSpecs (hread ▸ hweighted)).lists.text_eq
  have hlisting : weighted.grammar.text weighted.symbols =
      "S -> A- A-;\nA- -> \"//;\" <A->;\n" := by
    rw [htext]
    decide
  obtain ⟨again, _, _, hagain, _, _, hsame, _⟩ := ofText_text_keeps_rules _ weighted hweighted
  rw [hlisting] at hagain hsame
  exact ⟨weighted, again, hweighted, hlisting, hagain, hsame⟩

end WeightedGrammar

end WeightedParsing
