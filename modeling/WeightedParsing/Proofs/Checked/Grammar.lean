import WeightedParsing.Proofs.Checked.Scanning
import WeightedParsing.Proofs.Grammar.Building

/-!
# Building grammars with checks

The rules of a text are added one by one, each with a weight that must not be negative and
with the words that a terminal rule must have.  What was scanned before sees to both.  So
reading a text ends with the grammar or the error that it has in any case, and no check on
the way fails.
-/

namespace WeightedParsing

open GrammarText

/-- What the checks that come with adding a rule ask of it, besides a weight that is not
negative. -/
structure RuleSpec.Addable (spec : RuleSpec Float) : Prop where
  right_ne_nil : spec.right ≠ []
  isFinite : spec.weight.val.isFinite = true

namespace TextReader

/-! ## Adding rules -/

/-- Takes a result for granted; that it is refused is a fault. -/
def require {α : Type} (computed : Except UsageError α) : TextReader α :=
  check (computed.mapError .misuse)

def addRule (weighted : WeightedGrammar Float) (rule : Rule) (weight : Float) :
    TextReader (WeightedGrammar Float) := do
  note (.weighed weight)
  return weighted.addRule rule (← require (RuleWeight.ofScalar weight))

def addSpec (weighted : WeightedGrammar Float) (spec : UncheckedSpec) :
    TextReader (WeightedGrammar Float) := do
  let (parent, symbols) := weighted.symbols.intern spec.parent
  let (ruleType, symbols) := WeightedGrammar.internOption spec.ruleType symbols
  if spec.right.all fun item => item.word?.isSome then do
    let (words, symbols) := SymbolTable.internList (spec.right.map RightItem.name) symbols
    let rule ← require (TerminalRule.ofWords parent words)
    addRule { weighted with symbols } (.terminal { rule with ruleType }) spec.weight
  else if spec.right.all fun item => item.symbol?.isSome then
    if spec.right.length = 2 then do
      let left ← check (Checked.getAt spec.right.toArray 0)
      let (left, symbols) := symbols.intern left.name
      let right ← check (Checked.getAt spec.right.toArray 1)
      let (right, symbols) := symbols.intern right.name
      addRule { weighted with symbols } (.binary { parent, left, right, ruleType }) spec.weight
    else throw (.wrongArity spec.parent spec.right.length)
  else throw (.mixedRightSide spec.parent)

/-- Reads a whole text, of which reading the rules has to leave nothing. -/
def readGrammar (text : String) : TextReader (WeightedGrammar Float) := do
  let (specs, rest) ← readRules text
  if rest.isEmpty then
    if specs.isEmpty then throw .noRules
    else specs.foldlM addSpec .empty
  else attempt (.error (.leftOver rest))

/-! ## What scanning sees to -/

theorem isFinite_of_scanWeight {parent : String} {text : List Char} {scan}
    (h : scanWeight parent text = .ok scan) : scan.value.val.isFinite = true := by
  unfold scanWeight at h
  split at h
  · dsimp only at h
    split at h
    · contradiction
    · split at h
      · contradiction
      · rename_i hweight
        cases h
        obtain ⟨hfinite, hvalue⟩ := weightOfNumber?_eq_some.mp hweight
        rwa [hvalue]
  · cases h
    change (1 : Float).isFinite = true
    decide +kernel

theorem addable_of_scanRule {text : List Char} {scan} (h : scanRule text = .ok scan) :
    scan.value.Addable := by
  unfold scanRule at h
  split at h
  · contradiction
  split at h
  · obtain ⟨⟨right, afterRight, _⟩, _, h⟩ := exists_of_bind_eq_ok h
    dsimp only at h
    split at h
    · contradiction
    rename_i hright
    obtain ⟨⟨ruleType, afterType, _⟩, _, h⟩ := exists_of_bind_eq_ok h
    obtain ⟨⟨weight, afterWeight, _⟩, hweight, h⟩ := exists_of_bind_eq_ok h
    dsimp only at h
    split at h
    · have hfinite := isFinite_of_scanWeight hweight
      cases h
      exact ⟨by simpa using hright, hfinite⟩
    · contradiction
  · contradiction

theorem addable_of_scanRules {text : List Char} {specs : List (RuleSpec Float)}
    (h : scanRules text = .ok specs) : ∀ spec ∈ specs, spec.Addable := by
  fun_induction scanRules text generalizing specs with
  | case1 =>
      cases h
      exact List.forall_mem_nil _
  | case2 => contradiction
  | case3 => contradiction
  | case4 text start =>
      rename_i hscan specs hspecs ih
      cases h
      exact List.forall_mem_cons.mpr ⟨addable_of_scanRule hscan, ih hspecs⟩

/-! ## Rules that are added -/

variable {input : String}

theorem mapM_eq_ite {read : RightItem → Option String}
    (hread : ∀ item name, read item = some name → item.name = name) (items : List RightItem) :
    items.mapM read =
      if items.all fun item => (read item).isSome then some (items.map RightItem.name)
      else none := by
  induction items with
  | nil => rfl
  | cons item rest ih =>
      rw [List.mapM_cons, ih, List.all_cons, List.map_cons]
      cases hitem : read item with
      | none => simp
      | some name =>
          rw [hread item name hitem]
          by_cases hrest : (rest.all fun item => (read item).isSome) = true
          · simp [hrest]
          · simp [hrest]

theorem mapM_word?_eq (items : List RightItem) :
    items.mapM RightItem.word? =
      if items.all fun item => item.word?.isSome then some (items.map RightItem.name)
      else none := by
  refine mapM_eq_ite (fun item name hitem => ?_) items
  rw [(WeightedGrammar.word?_eq_some_iff item name).mp hitem]
  rfl

theorem mapM_symbol?_eq (items : List RightItem) :
    items.mapM RightItem.symbol? =
      if items.all fun item => item.symbol?.isSome then some (items.map RightItem.name)
      else none := by
  refine mapM_eq_ite (fun item name hitem => ?_) items
  rw [(WeightedGrammar.symbol?_eq_some_iff item name).mp hitem]
  rfl

theorem gives_addRule (weighted : WeightedGrammar Float) (rule : Rule)
    {weight : RuleWeight Float} (h : weight.val.isFinite = true) :
    Gives input (addRule weighted rule weight.val) (.ok (weighted.addRule rule weight)) := by
  have hsound : (ReadEvent.weighed weight.val).Sound input := ⟨h, weight.property⟩
  have hweight : RuleWeight.ofScalar weight.val = .ok weight := dif_pos weight.property
  refine (gives_note hsound).bind_ok (Gives.bind_ok (gives_check ?_) (gives_pure input _))
  rw [hweight]
  rfl

theorem gives_ofWords {parent : Symbol} {words : List Symbol} (h : words ≠ []) :
    Gives input (require (TerminalRule.ofWords parent words)) (.ok { parent, words }) := by
  apply gives_check
  rw [TerminalRule.ofWords, if_neg (by simpa using h)]
  rfl

theorem internList_ne_nil {names : List String} (h : names ≠ []) (symbols : SymbolTable) :
    (SymbolTable.internList names symbols).1 ≠ [] := by
  cases names with
  | nil => contradiction
  | cons => exact List.cons_ne_nil _ _

theorem gives_addSpec (weighted : WeightedGrammar Float) {spec : RuleSpec Float}
    (h : spec.Addable) :
    Gives input (addSpec weighted spec.unchecked) (weighted.addSpec spec) := by
  unfold addSpec WeightedGrammar.addSpec WeightedGrammar.resolve RuleSpec.unchecked
  rw [mapM_word?_eq, mapM_symbol?_eq]
  dsimp only
  split
  · -- Without items all of them are words; that there are some was seen to when scanning.
    have hnames : spec.right.map RightItem.name ≠ [] := by
      simpa using h.right_ne_nil
    exact (gives_ofWords (internList_ne_nil hnames _)).bind_ok (gives_addRule _ _ h.isFinite)
  split
  · split
    · rename_i htwo
      obtain ⟨left, right, hright⟩ := List.length_eq_two.mp htwo
      rw [hright]
      exact (gives_check rfl).bind_ok
        (Gives.bind_ok (gives_check rfl) (gives_addRule _ _ h.isFinite))
    · rename_i hlength
      rw [← List.length_map RightItem.name] at hlength ⊢
      generalize spec.right.map RightItem.name = names at hlength ⊢
      rcases names with _ | ⟨left, _ | ⟨right, _ | ⟨third, rest⟩⟩⟩
      · exact gives_throw input _
      · exact gives_throw input _
      · contradiction
      · exact gives_throw input _
  · exact gives_throw input _

theorem gives_addSpecs (weighted : WeightedGrammar Float) {specs : List (RuleSpec Float)}
    (h : ∀ spec ∈ specs, spec.Addable) :
    Gives input ((specs.map RuleSpec.unchecked).foldlM addSpec weighted)
      (specs.foldlM WeightedGrammar.addSpec weighted) := by
  induction specs generalizing weighted with
  | nil => exact gives_pure input weighted
  | cons spec rest ih =>
      rw [List.forall_mem_cons] at h
      rw [List.map_cons, List.foldlM_cons, List.foldlM_cons]
      exact (gives_addSpec weighted h.1).bind fun grown _ => ih grown h.2

/-! ## Whole texts -/

/-- Scanning the rules of a whole text leaves nothing of it. -/
theorem gives_rules (text : String) :
    Gives text (readRules text)
      ((fun specs => (specs.map RuleSpec.unchecked, "")) <$> scanRules text.toList) := by
  have hreads : Reads text text.toList (readRules (String.ofList text.toList)) _ :=
    reads_rules text.toList []
  unfold Reads at hreads
  rw [String.ofList_toList] at hreads
  have hgives := (hreads (isRest_self text)).1
  cases hscan : scanRules text.toList with
  | error => rwa [hscan] at hgives
  | ok specs => rwa [hscan] at hgives

theorem gives_grammar (text : String) :
    Gives text (readGrammar text) (WeightedGrammar.ofText text) := by
  have hrules := gives_rules text
  unfold readGrammar WeightedGrammar.ofText
  cases hscan : scanRules text.toList with
  | error =>
      rw [hscan] at hrules
      exact hrules.bind_error
  | ok specs =>
      rw [hscan] at hrules
      refine hrules.bind_ok ?_
      have hnothing : "".isEmpty = true := rfl
      dsimp only [bind, Except.bind]
      rw [if_pos hnothing, List.isEmpty_map]
      split
      · exact gives_throw text _
      · exact gives_addSpecs _ (addable_of_scanRules hscan)

/-- Reading a text ends with a grammar or an error and meets no fault.  Its loops leave less
of the text with each turn, every rest is what stands after a position of the text, words
that are taken out of their quotes are not empty, and the weights that are set are finite
and not negative. -/
theorem readGrammar_meets_no_fault (text : String) :
    ∃ events, (readGrammar text).perform [] = .ok (WeightedGrammar.ofText text, events) ∧
      ∀ event ∈ events, event.Sound text := by
  obtain ⟨events, hevents, hsound⟩ := gives_grammar text []
  exact ⟨events, hevents, hsound⟩

end TextReader

end WeightedParsing
