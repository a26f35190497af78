import WeightedParsing.Proofs.Grammar.Scanning

/-!
# Reading right-hand sides

Items are read until a text begins that is none.  What is read may be any mix of names
and words; the items of a written right-hand side are read in full, and items that fit
a rule in Chomsky normal form are a written right-hand side.
-/

namespace WeightedParsing.GrammarText

/-- Items as they are read, with trivia before each of them.  A name among them is as
long as it can be. -/
inductive Items : List Char → List RightItem → List Char → Prop where
  | nil {text rest : List Char} : Trivia text rest → Items text [] rest
  | word {word : String} {items : List RightItem} {text next rest : List Char} :
      Trivia text (quoted word next) → IsWord word → Items next items rest →
      Items text (.word word :: items) rest
  | symbol {name : String} {items : List RightItem} {text next rest : List Char} :
      Trivia text (name.toList ++ next) → IsName name → NotStarting isNameChar next →
      Items next items rest → Items text (.symbol name :: items) rest

/-- A text at which a right-hand side ends. -/
structure EndsRightSide (text : List Char) : Prop where
  notTrivia : skipTrivia text = text
  notQuote : text.head? ≠ some '"'
  notName : NotStarting isNameChar text

theorem scanRightSide_sound {text : List Char} {items rest hlt}
    (h : scanRightSide text = .ok ⟨items, rest, hlt⟩) :
    Items text items rest ∧ EndsRightSide rest := by
  fun_induction scanRightSide text generalizing items rest with
  | case1 => contradiction
  | case2 => contradiction
  | case3 text start =>
      rename_i hscan _ _ _ hrest ih
      cases h
      obtain ⟨hword, hstart⟩ := scanWord?_sound hscan
      have htrivia : Trivia text start := trivia_skipTrivia text
      rw [hstart] at htrivia
      obtain ⟨hitems, hends⟩ := ih hrest
      exact ⟨.word htrivia hword hitems, hends⟩
  | case4 text =>
      rename_i hquote hscan
      cases h
      exact ⟨.nil (trivia_skipTrivia text), skipTrivia_skipTrivia text, hquote,
        notStarting_of_scanName?_eq_none hscan⟩
  | case5 => contradiction
  | case6 text start =>
      rename_i hscan _ _ _ hrest ih
      cases h
      obtain ⟨hname, hstart, hnext⟩ := scanName?_sound hscan
      have htrivia : Trivia text start := trivia_skipTrivia text
      rw [hstart] at htrivia
      obtain ⟨hitems, hends⟩ := ih hrest
      exact ⟨.symbol htrivia hname hnext hitems, hends⟩

theorem scanRightSide_of_ends {text : List Char}
    (hends : EndsRightSide (skipTrivia text)) :
    ∃ hlt, scanRightSide text = .ok ⟨[], skipTrivia text, hlt⟩ := by
  rw [scanRightSide]
  simp only [if_neg hends.notQuote]
  rw [scanName?_eq_none_of_notStarting hends.notName]
  exact ⟨Nat.lt_succ_of_le (length_skipTrivia_le text), rfl⟩

theorem scanRightSide_of_word {text next rest : List Char} {word : String}
    {items : List RightItem} {hlt} (htrivia : Trivia text (quoted word next))
    (hword : IsWord word) (hitems : scanRightSide next = .ok ⟨items, rest, hlt⟩) :
    ∃ hlt, scanRightSide text = .ok ⟨.word word :: items, rest, hlt⟩ := by
  have hstart : skipTrivia text = quoted word next :=
    htrivia.skipTrivia_eq.trans (skipTrivia_quoted word next)
  have hquote : (skipTrivia text).head? = some '"' := by
    rw [hstart]
    rfl
  obtain ⟨hshort, hscan⟩ := scanWord?_complete hstart hword
  have hskip := length_skipTrivia_le text
  rw [scanRightSide]
  simp only [if_pos hquote]
  rw [hscan]
  dsimp only
  rw [hitems]
  exact ⟨by omega, rfl⟩

theorem scanRightSide_of_name {text next rest : List Char} {name : String}
    {items : List RightItem} {hlt} (htrivia : Trivia text (name.toList ++ next))
    (hname : IsName name) (hnext : NotStarting isNameChar next)
    (hitems : scanRightSide next = .ok ⟨items, rest, hlt⟩) :
    ∃ hlt, scanRightSide text = .ok ⟨.symbol name :: items, rest, hlt⟩ := by
  have hstart : skipTrivia text = name.toList ++ next :=
    htrivia.skipTrivia_eq.trans (skipTrivia_name_append hname next)
  have hquote : (skipTrivia text).head? ≠ some '"' := by
    rw [hstart]
    intro hc
    have hquote := isNameChar_of_head? hname hc
    contradiction
  obtain ⟨hshort, hscan⟩ := scanName?_complete hstart hname hnext
  have hskip := length_skipTrivia_le text
  rw [scanRightSide]
  simp only [if_neg hquote]
  rw [hscan]
  dsimp only
  rw [hitems]
  exact ⟨by omega, rfl⟩

theorem Items.scanRightSide_eq {text rest : List Char} {items : List RightItem}
    (h : Items text items rest) (hends : EndsRightSide rest) :
    ∃ hlt, scanRightSide text = .ok ⟨items, rest, hlt⟩ := by
  induction h with
  | nil htrivia =>
      have hstart := htrivia.skipTrivia_eq.trans hends.notTrivia
      rw [← hstart] at hends
      exact hstart ▸ scanRightSide_of_ends hends
  | word htrivia hword _ ih =>
      obtain ⟨_, hitems⟩ := ih hends
      exact scanRightSide_of_word htrivia hword hitems
  | symbol htrivia hname hnext _ ih =>
      obtain ⟨_, hitems⟩ := ih hends
      exact scanRightSide_of_name htrivia hname hnext hitems

/-! ## Right-hand sides -/

/-- A right-hand side of a rule in Chomsky normal form. -/
def RightFits (right : List RightItem) : Prop :=
  (∃ words : List String, right = words.map .word) ∨
    ∃ left' right' : String, right = [.symbol left', .symbol right']

theorem Items.of_trivia {text next rest : List Char} {items : List RightItem}
    (h : Trivia text next) (hitems : Items next items rest) : Items text items rest := by
  cases hitems with
  | nil htrivia => exact .nil (h.trans htrivia)
  | word htrivia hword hitems => exact .word (h.trans htrivia) hword hitems
  | symbol htrivia hname hnext hitems =>
      exact .symbol (h.trans htrivia) hname hnext hitems

theorem Words.items {text rest atEnd : List Char} {items : List RightItem}
    (h : Words text items rest) (hrest : Trivia rest atEnd) : Items text items atEnd := by
  induction h with
  | last hword => exact .word (.none _) hword (.nil hrest)
  | cons hword htrivia _ ih => exact .word (.none _) hword (.of_trivia htrivia (ih hrest))

theorem isNameChar_of_startsTrivia {c : Char} (h : startsTrivia c = true) :
    isNameChar c = false := by
  by_contra hname
  rw [startsTrivia_of_isNameChar (by simpa using hname)] at h
  contradiction

/-- A name ends where a gap begins. -/
theorem Gap.notStarting {text rest : List Char} (h : Gap text rest) :
    NotStarting isNameChar text := by
  intro c hc
  rcases h.1.head_cases hc with htrivia | heq
  · exact isNameChar_of_startsTrivia htrivia
  · exact absurd heq h.2

theorem Trivia.notStarting {text rest : List Char} (h : Trivia text rest)
    (hrest : NotStarting isNameChar rest) : NotStarting isNameChar text := by
  intro c hc
  rcases h.head_cases hc with htrivia | rfl
  · exact isNameChar_of_startsTrivia htrivia
  · exact hrest c hc

theorem RightSide.items {text rest atEnd : List Char} {items : List RightItem}
    (h : RightSide text items rest) (hrest : Trivia rest atEnd)
    (hends : EndsRightSide atEnd) : Items text items atEnd := by
  cases h with
  | names hleft hgap hright =>
      exact .symbol (.none _) hleft hgap.notStarting
        (.symbol hgap.1 hright (hrest.notStarting hends.notName) (.nil hrest))
  | words hwords => exact hwords.items hrest

theorem Items.words {words : List String} (hne : words ≠ []) {text atEnd : List Char}
    (h : Items text (words.map .word) atEnd) :
    ∃ start rest, Trivia text start ∧ Words start (words.map .word) rest ∧
      Trivia rest atEnd := by
  induction words generalizing text with
  | nil => contradiction
  | cons word words ih =>
      cases h with
      | @word _ _ _ next _ htrivia hword hitems =>
          cases words with
          | nil =>
              cases hitems with
              | nil hrest => exact ⟨_, _, htrivia, .last hword, hrest⟩
          | cons second words =>
              obtain ⟨start, rest, hgap, hwords, hrest⟩ := ih (by simp) hitems
              exact ⟨_, rest, htrivia, .cons hword hgap hwords, hrest⟩

/-- Of the items that are read, those that fit a rule are a written right-hand side. -/
theorem Items.rightSide {text atEnd : List Char} {items : List RightItem}
    (h : Items text items atEnd) (hne : items ≠ []) (hfits : RightFits items) :
    ∃ start rest, Trivia text start ∧ RightSide start items rest ∧
      Trivia rest atEnd := by
  rcases hfits with ⟨words, rfl⟩ | ⟨left', right', rfl⟩
  · obtain ⟨start, rest, htrivia, hwords, hrest⟩ :=
      Items.words (by simpa using hne) h
    exact ⟨start, rest, htrivia, .words hwords, hrest⟩
  · cases h with
    | symbol htrivia hleft hnext hitems =>
        cases hitems with
        | @symbol _ _ text' next _ hgap hright _ hend =>
            cases hend with
            | nil hrest =>
                refine ⟨_, next, htrivia, .names hleft ⟨hgap, ?_⟩ hright, hrest⟩
                rintro rfl
                exact not_notStarting_name_append hright next hnext

theorem Words.exists_eq_map {text rest : List Char} {items : List RightItem}
    (h : Words text items rest) :
    items ≠ [] ∧ ∃ words : List String, items = words.map .word := by
  induction h with
  | @last word => exact ⟨by simp, [word], rfl⟩
  | @cons word _ _ _ _ _ _ _ ih =>
      obtain ⟨_, words, rfl⟩ := ih
      exact ⟨by simp, word :: words, rfl⟩

theorem RightSide.fits {text rest : List Char} {items : List RightItem}
    (h : RightSide text items rest) : items ≠ [] ∧ RightFits items := by
  cases h with
  | names => exact ⟨by simp, .inr ⟨_, _, rfl⟩⟩
  | words hwords => exact ⟨hwords.exists_eq_map.1, .inl hwords.exists_eq_map.2⟩

end WeightedParsing.GrammarText
