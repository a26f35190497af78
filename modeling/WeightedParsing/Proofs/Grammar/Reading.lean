import WeightedParsing.Grammar.Weighted
import WeightedParsing.Proofs.Decimal.Sign
import WeightedParsing.Proofs.Grammar.RightSide

/-!
# Reading grammars

A rule is read as it is written, and from rules that fit into a grammar it follows that
they were written so.  By induction over the rules the same holds of a whole text: the
texts that are accepted are exactly the written ones.
-/

namespace WeightedParsing

namespace GrammarText

/-! ## Types and weights -/

theorem skipTrivia_of_head? {text : List Char} {c : Char} (hc : text.head? = some c)
    (htrivia : startsTrivia c = false) : skipTrivia text = text := by
  apply skipTrivia_eq_self
  intro d hd
  rw [hc] at hd
  cases hd
  exact htrivia

theorem scanRuleType_sound {text : List Char} {ruleType rest hlt}
    (htext : skipTrivia text = text)
    (h : scanRuleType text = .ok ⟨ruleType, rest, hlt⟩) :
    OptionalType text ruleType (skipTrivia rest) := by
  unfold scanRuleType at h
  split at h
  · rename_i body
    dsimp only at h
    split at h
    · contradiction
    · rename_i name afterName _ hscan
      split at h
      · rename_i more hclose
        cases h
        obtain ⟨hname, hstart, _⟩ := scanName?_sound hscan
        have htrivia := trivia_skipTrivia body
        have hafter := trivia_skipTrivia afterName
        rw [hstart] at htrivia
        rw [hclose] at hafter
        exact .written htrivia hname hafter (trivia_skipTrivia rest)
      · contradiction
  · cases h
    rw [htext]
    exact .absent text

theorem OptionalType.scanRuleType_eq {text atWeight : List Char}
    {ruleType : Option String} (h : OptionalType text ruleType atWeight)
    (hweight : skipTrivia atWeight = atWeight) (hopen : atWeight.head? ≠ some '<') :
    ∃ rest hlt, scanRuleType text = .ok ⟨ruleType, rest, hlt⟩ ∧
      skipTrivia rest = atWeight := by
  cases h with
  | absent =>
      refine ⟨text, by simp, ?_, hweight⟩
      unfold scanRuleType
      split
      · simp at hopen
      · rfl
  | @written name body afterName next _ hstart hname hclose hrest =>
      have hskip : skipTrivia body = name.toList ++ afterName :=
        hstart.skipTrivia_eq.trans (skipTrivia_name_append hname afterName)
      have hafter : skipTrivia afterName = '>' :: next :=
        hclose.skipTrivia_eq.trans (skipTrivia_of_head? rfl rfl)
      have hnot : NotStarting isNameChar afterName := by
        apply hclose.notStarting
        rintro c ⟨⟩
        rfl
      obtain ⟨hshort, hscan⟩ := scanName?_complete hskip hname hnot
      have hlength := length_skipTrivia_le body
      have hlength' := length_skipTrivia_le afterName
      rw [hafter, List.length_cons] at hlength'
      refine ⟨next, by simp only [List.length_cons]; omega, ?_,
        hrest.skipTrivia_eq.trans hweight⟩
      simp only [scanRuleType]
      rw [hscan]
      dsimp only
      split
      · rename_i more hmore
        rw [hafter] at hmore
        cases hmore
        rfl
      · rename_i hother
        exact absurd hafter (hother next)

theorem scanWeight_sound {parent : String} {text : List Char} {weight rest hlt}
    (htext : skipTrivia text = text)
    (h : scanWeight parent text = .ok ⟨weight, rest, hlt⟩) :
    OptionalWeight text weight (skipTrivia rest) := by
  unfold scanWeight at h
  split at h
  · rename_i body
    dsimp only at h
    split at h
    · contradiction
    · rename_i number afterNumber hscan
      split at h
      · contradiction
      · rename_i hweight
        cases h
        obtain ⟨hnumber, hstart⟩ := Decimal.scanNumber_sound hscan
        obtain ⟨hfinite, hvalue⟩ := weightOfNumber?_eq_some.mp hweight
        have htrivia := trivia_skipTrivia body
        rw [hstart] at htrivia
        exact .written htrivia hnumber hfinite hvalue (trivia_skipTrivia rest)
  · cases h
    rw [htext]
    exact .absent text

theorem OptionalWeight.scanWeight_eq {text next : List Char}
    {weight : RuleWeight Float} (h : OptionalWeight text weight (';' :: next))
    (parent : String) :
    ∃ rest hlt, scanWeight parent text = .ok ⟨weight, rest, hlt⟩ ∧
      skipTrivia rest = ';' :: next := by
  have hsemicolon : skipTrivia (';' :: next) = ';' :: next := skipTrivia_of_head? rfl rfl
  cases h with
  | absent => exact ⟨_, by simp, rfl, hsemicolon⟩
  | @written number _ body afterNumber _ hstart hnumber hfinite hvalue hrest =>
      have hskip : skipTrivia body = number.chars ++ afterNumber :=
        hstart.skipTrivia_eq.trans (skipTrivia_number_append hnumber afterNumber)
      have hnot : NotStarting Decimal.continuesNumber afterNumber := by
        apply hrest.notStarting_continuesNumber
        rintro c ⟨⟩
        rfl
      have hscan := Decimal.scanNumber_complete hnumber hnot
      rw [← hskip] at hscan
      have hlength := Decimal.length_scanNumber_le hscan
      have hlength' := length_skipTrivia_le body
      refine ⟨afterNumber, by simp only [List.length_cons]; omega, ?_,
        hrest.skipTrivia_eq.trans hsemicolon⟩
      simp only [scanWeight]
      split
      · rename_i hnone
        rw [hscan] at hnone
        contradiction
      · rename_i number' after' hsome
        rw [hscan] at hsome
        cases hsome
        rw [weightOfNumber?_eq_some.mpr ⟨hfinite, hvalue⟩]

/-! ## Rules -/

theorem OptionalWeight.head? {text next : List Char} {weight : RuleWeight Float}
    (h : OptionalWeight text weight (';' :: next)) :
    text.head? = some ':' ∨ text.head? = some ';' := by
  cases h with
  | absent => exact .inr rfl
  | written => exact .inl rfl

theorem endsRightSide_of_head? {text : List Char} {c : Char} (hc : text.head? = some c)
    (htrivia : startsTrivia c = false) (hquote : c ≠ '"') (hname : isNameChar c = false) :
    EndsRightSide text where
  notTrivia := skipTrivia_of_head? hc htrivia
  notQuote := by
    rw [hc]
    exact fun h => hquote (Option.some.inj h)
  notName d hd := by
    rw [hc] at hd
    cases hd
    exact hname

theorem OptionalType.endsRightSide {text atWeight next : List Char}
    {ruleType : Option String} {weight : RuleWeight Float}
    (h : OptionalType text ruleType atWeight)
    (hweight : OptionalWeight atWeight weight (';' :: next)) : EndsRightSide text := by
  cases h with
  | absent =>
      rcases hweight.head? with hhead | hhead
      · exact endsRightSide_of_head? hhead rfl (by decide) rfl
      · exact endsRightSide_of_head? hhead rfl (by decide) rfl
  | written => exact endsRightSide_of_head? rfl rfl (by decide) rfl

theorem scanRule_sound {text rest : List Char} {spec : RuleSpec Float} {hlt}
    (h : scanRule text = .ok ⟨spec, rest, hlt⟩) (hfits : RightFits spec.right) :
    WrittenRule text spec rest := by
  unfold scanRule at h
  split at h
  · contradiction
  · rename_i parent afterParent _ hparent
    split at h
    · rename_i afterArrow harrow
      cases hright : scanRightSide afterArrow with
      | error => rw [hright] at h; contradiction
      | ok scan =>
          rw [hright] at h
          obtain ⟨right, afterRight, hshort⟩ := scan
          dsimp only [bind, Except.bind] at h
          split at h
          · contradiction
          · rename_i hnonempty
            cases htype : scanRuleType afterRight with
            | error => rw [htype] at h; contradiction
            | ok scan =>
                rw [htype] at h
                obtain ⟨ruleType, afterType, _⟩ := scan
                dsimp only at h
                cases hweight : scanWeight parent (skipTrivia afterType) with
                | error => rw [hweight] at h; contradiction
                | ok scan =>
                    rw [hweight] at h
                    obtain ⟨weight, afterWeight, _⟩ := scan
                    dsimp only at h
                    split at h
                    · rename_i hsemicolon
                      cases h
                      obtain ⟨hname, rfl, hstop⟩ := scanName?_sound hparent
                      obtain ⟨hitems, hends⟩ := scanRightSide_sound hright
                      obtain ⟨start, atEnd, hstart, hside, hend⟩ :=
                        hitems.rightSide (by simpa using hnonempty) hfits
                      have hgap := trivia_skipTrivia afterParent
                      have hweight' := scanWeight_sound (skipTrivia_skipTrivia _) hweight
                      rw [harrow] at hgap
                      rw [hsemicolon] at hweight'
                      refine .mk hname ⟨hgap, ?_⟩ hstart hside hend
                        (scanRuleType_sound hends.notTrivia htype) hweight'
                      -- A hyphen right after the name would belong to the name.
                      rintro rfl
                      have hhyphen := hstop '-' rfl
                      contradiction
                    · contradiction
    · contradiction

theorem WrittenRule.scanRule_eq {text rest : List Char} {spec : RuleSpec Float}
    (h : WrittenRule text spec rest) :
    ∃ scan, scanRule text = .ok scan ∧ scan.value = spec ∧ scan.rest = rest := by
  cases h with
  | @mk parent right ruleType weight afterParent afterArrow start afterRight atType
      atWeight _ hparent hgap hstart hright hafterRight htype hweight =>
      have hends := htype.endsRightSide hweight
      have hweightStart : skipTrivia atWeight = atWeight ∧ atWeight.head? ≠ some '<' := by
        rcases hweight.head? with hhead | hhead
        · exact ⟨skipTrivia_of_head? hhead rfl, by simp [hhead]⟩
        · exact ⟨skipTrivia_of_head? hhead rfl, by simp [hhead]⟩
      have harrow : skipTrivia afterParent = '-' :: '>' :: afterArrow :=
        hgap.1.skipTrivia_eq.trans (skipTrivia_of_head? rfl rfl)
      obtain ⟨_, hscan⟩ := scanName?_complete rfl hparent hgap.notStarting
      obtain ⟨_, hitems⟩ :=
        (Items.of_trivia hstart (hright.items hafterRight hends)).scanRightSide_eq hends
      obtain ⟨afterType, _, htypeScan, hatWeight⟩ :=
        htype.scanRuleType_eq hweightStart.1 hweightStart.2
      subst hatWeight
      obtain ⟨afterWeight, _, hweightScan, hsemicolon⟩ := hweight.scanWeight_eq parent
      have hnonempty : ¬ right.isEmpty = true := by simpa using hright.fits.1
      unfold scanRule
      rw [hscan]
      dsimp only
      split
      · rename_i afterArrow' harrow'
        rw [harrow] at harrow'
        cases harrow'
        rw [hitems]
        dsimp only [bind, Except.bind]
        rw [if_neg hnonempty, htypeScan]
        dsimp only
        rw [hweightScan]
        dsimp only
        split
        · rename_i rest' hrest'
          rw [hsemicolon] at hrest'
          cases hrest'
          exact ⟨_, rfl, rfl, rfl⟩
        · rename_i hother
          exact absurd hsemicolon (hother rest)
      · rename_i hother
        exact absurd harrow (hother afterArrow)

/-! ## Texts -/

theorem WrittenRule.skipTrivia_eq {text rest : List Char} {spec : RuleSpec Float}
    (h : WrittenRule text spec rest) : skipTrivia text = text ∧ text ≠ [] := by
  cases h with
  | mk hparent =>
      refine ⟨skipTrivia_name_append hparent _, ?_⟩
      simp [hparent.1]

theorem scanRules_sound {text : List Char} {specs : List (RuleSpec Float)}
    (h : scanRules text = .ok specs) (hfits : ∀ spec ∈ specs, RightFits spec.right) :
    specs = [] ∧ Trivia text [] ∨ Written text specs := by
  fun_induction scanRules text generalizing specs with
  | case1 text start =>
      rename_i hempty
      cases h
      have htrivia : Trivia text start := trivia_skipTrivia text
      rw [List.isEmpty_iff.mp hempty] at htrivia
      exact .inl ⟨rfl, htrivia⟩
  | case2 => contradiction
  | case3 => contradiction
  | case4 text start =>
      rename_i spec rest _ hscan specs hspecs ih
      cases h
      rw [List.forall_mem_cons] at hfits
      have hrule := scanRule_sound hscan hfits.1
      rcases ih hspecs hfits.2 with ⟨rfl, hend⟩ | ⟨next, htrivia, hrules⟩
      · exact .inr ⟨start, trivia_skipTrivia text, .last hrule hend⟩
      · exact .inr ⟨start, trivia_skipTrivia text, .cons hrule htrivia hrules⟩

theorem scanRules_cons {text start rest : List Char} {spec : RuleSpec Float}
    {specs : List (RuleSpec Float)} (htrivia : Trivia text start)
    (hrule : WrittenRule start spec rest) (hspecs : scanRules rest = .ok specs) :
    scanRules text = .ok (spec :: specs) := by
  have hstart : skipTrivia text = start :=
    htrivia.skipTrivia_eq.trans hrule.skipTrivia_eq.1
  subst hstart
  obtain ⟨scan, hscan, rfl, rfl⟩ := hrule.scanRule_eq
  rw [scanRules]
  simp only [List.isEmpty_eq_false_iff.mpr hrule.skipTrivia_eq.2, Bool.false_eq_true,
    if_false, hscan, hspecs]

theorem scanRules_of_trivia {text : List Char} (h : Trivia text []) :
    scanRules text = .ok [] := by
  have hstart : skipTrivia text = [] := h.skipTrivia_eq.trans (by rw [skipTrivia])
  rw [scanRules]
  simp only [hstart, List.isEmpty_nil, if_true]

theorem WrittenRules.scanRules_eq {start : List Char} {specs : List (RuleSpec Float)}
    (h : WrittenRules start specs) {text : List Char} (htext : Trivia text start) :
    scanRules text = .ok specs := by
  induction h generalizing text with
  | last hrule hend => exact scanRules_cons htext hrule (scanRules_of_trivia hend)
  | cons hrule htrivia _ ih => exact scanRules_cons htext hrule (ih htrivia)

theorem WrittenRules.fits {start : List Char} {specs : List (RuleSpec Float)}
    (h : WrittenRules start specs) :
    specs ≠ [] ∧ ∀ spec ∈ specs, RightFits spec.right := by
  have hrule : ∀ {text rest : List Char} {spec : RuleSpec Float},
      WrittenRule text spec rest → RightFits spec.right := by
    intro text rest spec h
    cases h with
    | mk _ _ _ hright => exact hright.fits.2
  induction h with
  | last h _ => exact ⟨by simp, by simpa using hrule h⟩
  | cons h _ _ ih => exact ⟨by simp, List.forall_mem_cons.mpr ⟨hrule h, ih.2⟩⟩

end GrammarText

namespace WeightedGrammar

open GrammarText

theorem mapM_eq_some_iff {α β : Type} {read : α → Option β} {write : β → α}
    (hread : ∀ a b, read a = some b ↔ a = write b) {as : List α} {bs : List β} :
    as.mapM read = some bs ↔ as = bs.map write := by
  induction as generalizing bs with
  | nil => cases bs <;> simp
  | cons a rest ih =>
      rw [List.mapM_cons]
      cases bs with
      | nil => cases read a <;> cases rest.mapM read <;> simp
      | cons b bs =>
          rw [List.map_cons, List.cons.injEq, ← hread, ← ih]
          cases read a <;> cases rest.mapM read <;> simp

theorem word?_eq_some_iff (item : RightItem) (name : String) :
    item.word? = some name ↔ item = .word name := by
  cases item <;> simp [RightItem.word?]

theorem symbol?_eq_some_iff (item : RightItem) (name : String) :
    item.symbol? = some name ↔ item = .symbol name := by
  cases item <;> simp [RightItem.symbol?]

theorem exists_resolve_iff {K : Type} [Scalar K] (symbols : SymbolTable)
    (spec : RuleSpec K) :
    (∃ result, resolve symbols spec = .ok result) ↔ RightFits spec.right := by
  have hwords : ∀ words, spec.right.mapM RightItem.word? = some words ↔
      spec.right = words.map .word := fun _ => mapM_eq_some_iff word?_eq_some_iff
  have hsymbols : ∀ names, spec.right.mapM RightItem.symbol? = some names ↔
      spec.right = names.map .symbol := fun _ => mapM_eq_some_iff symbol?_eq_some_iff
  unfold resolve RightFits
  dsimp only
  split
  · rename_i words heq
    exact ⟨fun _ => .inl ⟨words, (hwords words).mp heq⟩, fun _ => ⟨_, rfl⟩⟩
  · rename_i left' right' _ heq
    exact ⟨fun _ => .inr ⟨left', right', (hsymbols _).mp heq⟩, fun _ => ⟨_, rfl⟩⟩
  · rename_i names hother hnone heq
    constructor
    · rintro ⟨_, h⟩
      contradiction
    · rintro (⟨words, h⟩ | ⟨left', right', h⟩)
      · rw [(hwords words).mpr h] at hnone
        contradiction
      · rw [(hsymbols [left', right']).mpr h] at heq
        exact absurd (Option.some.inj heq).symm (hother left' right')
  · rename_i hnone heq
    constructor
    · rintro ⟨_, h⟩
      contradiction
    · rintro (⟨words, h⟩ | ⟨left', right', h⟩)
      · rw [(hwords words).mpr h] at hnone
        contradiction
      · rw [(hsymbols [left', right']).mpr h] at heq
        contradiction

theorem exists_foldlM_addSpec_iff {K : Type} [Scalar K] (specs : List (RuleSpec K))
    (weighted : WeightedGrammar K) :
    (∃ result, specs.foldlM addSpec weighted = .ok result) ↔
      ∀ spec ∈ specs, RightFits spec.right := by
  induction specs generalizing weighted with
  | nil => simp; exact ⟨_, rfl⟩
  | cons spec rest ih =>
      rw [List.forall_mem_cons, ← exists_resolve_iff weighted.symbols spec,
        List.foldlM_cons]
      cases hspec : resolve weighted.symbols spec with
      | error => simp [addSpec, hspec, bind, Except.bind]
      | ok result =>
          simp only [addSpec, hspec, bind, Except.bind, pure, Except.pure]
          rw [ih]
          simp

theorem ofText_eq_ofSpecs {text : String} {specs : List (RuleSpec Float)}
    (h : Written text.toList specs) :
    scanRules text.toList = .ok specs ∧ ofText text = ofSpecs specs ∧
      ∃ weighted, ofText text = .ok weighted := by
  obtain ⟨start, htrivia, hrules⟩ := h
  have hscan := hrules.scanRules_eq htrivia
  have hread : ofText text = ofSpecs specs := by
    unfold ofText
    rw [hscan]
    exact if_neg (by simpa using hrules.fits.1)
  refine ⟨hscan, hread, ?_⟩
  rw [hread]
  exact (exists_foldlM_addSpec_iff specs empty).mpr hrules.fits.2

theorem exists_written_of_ofText {text : String} {weighted : WeightedGrammar Float}
    (h : ofText text = .ok weighted) : ∃ specs, Written text.toList specs := by
  unfold ofText at h
  cases hscan : scanRules text.toList with
  | error =>
      rw [hscan] at h
      contradiction
  | ok specs =>
      rw [hscan] at h
      dsimp only [bind, Except.bind] at h
      split at h
      · contradiction
      · rename_i hnonempty
        have hfits := (exists_foldlM_addSpec_iff specs empty).mp ⟨weighted, h⟩
        rcases scanRules_sound hscan hfits with ⟨rfl, _⟩ | hrules
        · contradiction
        · exact ⟨specs, hrules⟩

/-- A text is accepted if and only if it is written in the format, and then the rules
of the grammar are the ones that it writes. -/
theorem ofText_accepts_written (text : String) :
    ((∃ weighted, ofText text = .ok weighted) ↔ ∃ specs, Written text.toList specs) ∧
    (∀ specs, Written text.toList specs →
      scanRules text.toList = .ok specs ∧ ofText text = ofSpecs specs) ∧
    ((¬ ∃ specs, Written text.toList specs) → ∃ e, ofText text = .error e) := by
  refine ⟨⟨?_, ?_⟩, ?_, ?_⟩
  · rintro ⟨weighted, h⟩
    exact exists_written_of_ofText h
  · rintro ⟨specs, h⟩
    exact (ofText_eq_ofSpecs h).2.2
  · intro specs h
    exact ⟨(ofText_eq_ofSpecs h).1, (ofText_eq_ofSpecs h).2.1⟩
  · intro hnot
    cases h : ofText text with
    | error e => exact ⟨e, rfl⟩
    | ok weighted => exact absurd (exists_written_of_ofText h) hnot

/-- A comment keeps the name and the arrow apart, and the point stands first in the
number. -/
theorem ofText_accepts_written_comment :
    ∃ spec : RuleSpec Float, spec.parent = "S" ∧ spec.right = [.word "a"] ∧
      spec.ruleType = none ∧ spec.weight.val = 0.5 ∧
      ofText "S//\n->\"a\": .5;" = ofSpecs [spec] ∧
      ∃ weighted, ofText "S//\n->\"a\": .5;" = .ok weighted := by
  have hname : IsName "S" := ⟨by decide, by simp; decide⟩
  have hword : IsWord "a" := ⟨by decide, by simp; decide⟩
  have hnumber : Decimal.NumberText.WellFormed ⟨[], some ['5'], none⟩ := by
    refine ⟨by simp, by simp, ?_, by simp⟩
    rintro digits ⟨⟩
    exact ⟨by simp, by simp⟩
  have hgap : Gap ['/', '/', '\n', '-', '>', '"', 'a', '"', ':', ' ', '.', '5', ';']
      ['-', '>', '"', 'a', '"', ':', ' ', '.', '5', ';'] :=
    ⟨.comment (List.forall_mem_nil _) (.inr rfl) (.blank rfl (.none _)), by decide⟩
  have hright : RightSide (quoted "a" [':', ' ', '.', '5', ';']) [.word "a"]
      [':', ' ', '.', '5', ';'] := .words (.last hword)
  have hweight : OptionalWeight [':', ' ', '.', '5', ';']
      ⟨_, Decimal.NumberText.le_toFloat ⟨[], some ['5'], none⟩⟩ [';'] :=
    .written (.blank rfl (.none _)) hnumber (by decide +kernel) rfl (.none _)
  have hrule := WrittenRule.mk hname hgap (.none _) hright (.none _) (.absent _) hweight
  have hwritten : Written "S//\n->\"a\": .5;".toList [_] :=
    ⟨_, .none _, .last hrule (.none _)⟩
  obtain ⟨hiff, hspecs, _⟩ := ofText_accepts_written "S//\n->\"a\": .5;"
  exact ⟨_, rfl, rfl, rfl, by decide +kernel, (hspecs _ hwritten).2, hiff.mpr ⟨_, hwritten⟩⟩

end WeightedGrammar

end WeightedParsing
