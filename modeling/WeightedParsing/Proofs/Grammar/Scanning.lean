import Mathlib
import WeightedParsing.Proofs.Grammar.Written
import WeightedParsing.Proofs.Text.Words

/-!
# Scanning trivia, names, words and numbers

Each scanner takes the longest piece of its form.  It reads what is written if what
follows does not continue the piece, and what it reads is written so.
-/

namespace WeightedParsing

namespace Decimal

theorem scanSign_sound (text : List Char) :
    (scanSign text).1.toList ++ (scanSign text).2 = text ∧
      ((scanSign text).1 = none ∨ (scanSign text).1 = some '+' ∨
        (scanSign text).1 = some '-') := by
  unfold scanSign
  split <;> simp

def exponentChars : Option ExponentText → List Char
  | some exponent => exponent.chars
  | none => []

def fractionChars : Option (List Char) → List Char
  | some digits => '.' :: digits
  | none => []

theorem NumberText.chars_eq (number : NumberText) :
    number.chars =
      number.whole ++ (fractionChars number.fraction ++ exponentChars number.exponent) := by
  unfold NumberText.chars
  rw [List.append_assoc]
  cases number.fraction <;> cases number.exponent <;> rfl

theorem scanExponent_sound (text : List Char) :
    exponentChars (scanExponent text).1 ++ (scanExponent text).2 = text ∧
      ∀ exponent, (scanExponent text).1 = some exponent → exponent.WellFormed := by
  cases text with
  | nil => exact ⟨rfl, fun _ h => nomatch h⟩
  | cons c rest =>
      have hsign := scanSign_sound rest
      simp only [scanExponent]
      split
      · rename_i h
        refine ⟨by simp [exponentChars, ExponentText.chars, hsign.1], ?_⟩
        rintro exponent ⟨⟩
        exact ⟨h.1, hsign.2, h.2, fun _ => List.mem_takeWhile_imp⟩
      · exact ⟨rfl, fun _ h => nomatch h⟩

theorem scanFraction_sound (text : List Char) :
    fractionChars (scanFraction text).1 ++ (scanFraction text).2 = text ∧
      ∀ digits, (scanFraction text).1 = some digits →
        digits ≠ [] ∧ ∀ c ∈ digits, c.isDigit = true := by
  fun_cases scanFraction text with
  | case1 rest digits h =>
      refine ⟨by simp [fractionChars, digits], ?_⟩
      rintro _ ⟨⟩
      exact ⟨h, fun _ => List.mem_takeWhile_imp⟩
  | case2 rest digits h => exact ⟨rfl, fun _ h => nomatch h⟩
  | case3 h => exact ⟨rfl, fun _ h => nomatch h⟩

theorem scanNumber_sound {text rest : List Char} {number : NumberText}
    (h : scanNumber text = some (number, rest)) :
    number.WellFormed ∧ text = number.chars ++ rest := by
  unfold scanNumber at h
  dsimp only at h
  split at h
  · contradiction
  · rename_i hsome
    cases h
    have hfraction := scanFraction_sound (text.dropWhile Char.isDigit)
    have hexponent :=
      scanExponent_sound (scanFraction (text.dropWhile Char.isDigit)).2
    refine ⟨⟨fun _ => List.mem_takeWhile_imp, ?_, hfraction.2, hexponent.2⟩, ?_⟩
    · intro hnone hnil
      exact hsome ⟨hnil, hnone⟩
    · rw [NumberText.chars_eq, List.append_assoc, List.append_assoc, hexponent.1,
        hfraction.1, List.takeWhile_append_dropWhile]

/-- Whether a character may continue a number. -/
def continuesNumber (c : Char) : Bool :=
  c.isDigit || c == '.' || c == 'e' || c == 'E'

theorem notStarting_isDigit {rest : List Char}
    (h : NotStarting continuesNumber rest) : NotStarting Char.isDigit rest := by
  intro c hc
  have hcontinues := h c hc
  simp only [continuesNumber, Bool.or_eq_false_iff] at hcontinues
  exact hcontinues.1.1.1

theorem ne_point {rest : List Char} (h : NotStarting continuesNumber rest) :
    rest.head? ≠ some '.' := by
  intro hpoint
  have hcontinues := h '.' hpoint
  simp [continuesNumber] at hcontinues

theorem scanSign_complete {sign : Option Char} {digits : List Char}
    (hsign : sign = none ∨ sign = some '+' ∨ sign = some '-')
    (hdigits : digits ≠ []) (hdigit : ∀ c ∈ digits, c.isDigit = true)
    (rest : List Char) :
    scanSign (sign.toList ++ (digits ++ rest)) = (sign, digits ++ rest) := by
  rcases hsign with rfl | rfl | rfl
  · cases digits with
    | nil => contradiction
    | cons c digits =>
        have hc := hdigit c List.mem_cons_self
        simp only [Option.toList_none, List.nil_append, List.cons_append]
        unfold scanSign
        split
        · rename_i heq
          cases heq
          contradiction
        · rename_i heq
          cases heq
          contradiction
        · rfl
  · rfl
  · rfl

theorem scanExponent_complete {exponent : ExponentText} {rest : List Char}
    (h : exponent.WellFormed) (hrest : NotStarting Char.isDigit rest) :
    scanExponent (exponent.chars ++ rest) = (some exponent, rest) := by
  obtain ⟨letter, sign, digits⟩ := exponent
  obtain ⟨hletter, hsign, hdigits, hdigit⟩ := h
  have hscan := scanSign_complete hsign hdigits hdigit rest
  simp only [ExponentText.chars, List.cons_append, List.append_assoc, scanExponent,
    hscan, takeWhile_append_of_notStarting hdigit hrest,
    dropWhile_append_of_notStarting hdigit hrest]
  rw [if_pos ⟨hletter, hdigits⟩]

theorem scanExponent_none {rest : List Char} (hrest : NotStarting continuesNumber rest) :
    scanExponent rest = (none, rest) := by
  cases rest with
  | nil => rfl
  | cons c rest =>
      have hc := hrest c rfl
      simp only [continuesNumber, Bool.or_eq_false_iff, beq_eq_false_iff_ne] at hc
      simp [scanExponent, hc]

theorem scanFraction_complete {digits rest : List Char} (hdigits : digits ≠ [])
    (hdigit : ∀ c ∈ digits, c.isDigit = true) (hrest : NotStarting Char.isDigit rest) :
    scanFraction ('.' :: (digits ++ rest)) = (some digits, rest) := by
  simp only [scanFraction, takeWhile_append_of_notStarting hdigit hrest,
    dropWhile_append_of_notStarting hdigit hrest]
  rw [if_pos hdigits]

theorem scanFraction_none {rest : List Char} (hrest : rest.head? ≠ some '.') :
    scanFraction rest = (none, rest) := by
  unfold scanFraction
  split
  · simp at hrest
  · rfl

theorem head?_exponentChars_append {exponent : Option ExponentText} {rest : List Char}
    (h : ∀ text, exponent = some text → text.WellFormed) {c : Char}
    (hc : (exponentChars exponent ++ rest).head? = some c) :
    c = 'e' ∨ c = 'E' ∨ rest.head? = some c := by
  cases exponent with
  | none => exact .inr (.inr hc)
  | some text =>
      have hletter := (h text rfl).1
      have hfirst : text.letter = c := Option.some.inj hc
      rw [hfirst] at hletter
      exact hletter.imp_right .inl

theorem scanNumber_complete {number : NumberText} {rest : List Char}
    (h : number.WellFormed) (hrest : NotStarting continuesNumber rest) :
    scanNumber (number.chars ++ rest) = some (number, rest) := by
  obtain ⟨whole, fraction, exponent⟩ := number
  obtain ⟨hwhole, hne, hfractions, hexponents⟩ := h
  have hexponent : scanExponent (exponentChars exponent ++ rest) = (exponent, rest) := by
    cases exponent with
    | none => exact scanExponent_none hrest
    | some text =>
        exact scanExponent_complete (hexponents text rfl) (notStarting_isDigit hrest)
  have hafter : NotStarting Char.isDigit (exponentChars exponent ++ rest) ∧
      (exponentChars exponent ++ rest).head? ≠ some '.' := by
    constructor
    · intro c hc
      rcases head?_exponentChars_append hexponents hc with rfl | rfl | hc
      · rfl
      · rfl
      · exact notStarting_isDigit hrest c hc
    · intro hpoint
      rcases head?_exponentChars_append hexponents hpoint with h | h | hc
      · contradiction
      · contradiction
      · exact ne_point hrest hc
  have hfraction :
      scanFraction (fractionChars fraction ++ (exponentChars exponent ++ rest)) =
        (fraction, exponentChars exponent ++ rest) := by
    cases fraction with
    | none => exact scanFraction_none hafter.2
    | some digits =>
        obtain ⟨hdigits, hdigit⟩ := hfractions digits rfl
        exact scanFraction_complete hdigits hdigit hafter.1
  have hpoint : NotStarting Char.isDigit
      (fractionChars fraction ++ (exponentChars exponent ++ rest)) := by
    cases fraction with
    | none => exact hafter.1
    | some digits =>
        rintro c ⟨⟩
        rfl
  rw [NumberText.chars_eq, List.append_assoc, List.append_assoc]
  simp only [scanNumber, takeWhile_append_of_notStarting hwhole hpoint,
    dropWhile_append_of_notStarting hwhole hpoint, hfraction, hexponent]
  rw [if_neg fun hnone => hne hnone.2 hnone.1]

end Decimal

namespace GrammarText

/-! ## Trivia -/

theorem trivia_skipTrivia (text : List Char) : Trivia text (skipTrivia text) := by
  fun_induction skipTrivia text with
  | case1 => exact .none _
  | case2 c rest h ih => exact .blank h ih
  | case3 comment _ ih =>
      have hcomment : comment = (comment.takeWhile fun d => d != '\n') ++
          comment.dropWhile fun d => d != '\n' := List.takeWhile_append_dropWhile.symm
      rw [hcomment]
      refine .comment ?_ ?_ (by rwa [← hcomment])
      · intro c hc
        simpa using List.mem_takeWhile_imp hc
      · have hstop := notStarting_dropWhile (fun d => d != '\n') comment
        cases hrest : comment.dropWhile fun d => d != '\n' with
        | nil => exact .inl rfl
        | cons c rest =>
            rw [hrest] at hstop
            have hnewline := hstop c rfl
            simp only [bne_eq_false_iff_eq] at hnewline
            exact .inr (congrArg some hnewline)
  | case4 => exact .none _
  | case5 => exact .none _

theorem skipTrivia_of_isBlank {c : Char} (h : Text.isBlank c = true)
    (rest : List Char) : skipTrivia (c :: rest) = skipTrivia rest := by
  rw [skipTrivia.eq_def]
  dsimp only
  rw [if_pos h]

theorem Trivia.trans {text next rest : List Char} (h : Trivia text next)
    (hnext : Trivia next rest) : Trivia text rest := by
  induction h with
  | none => exact hnext
  | blank hblank _ ih => exact .blank hblank (ih hnext)
  | comment hbody hend _ ih => exact .comment hbody hend (ih hnext)

/-- However much trivia is passed over, what is left without trivia is the same. -/
theorem Trivia.skipTrivia_eq {text rest : List Char} (h : Trivia text rest) :
    skipTrivia text = skipTrivia rest := by
  induction h with
  | none => rfl
  | blank hblank _ ih => rw [skipTrivia_of_isBlank hblank, ih]
  | @comment body text rest hbody hend _ ih =>
      have hdrop : (body ++ text).dropWhile (fun d => d != '\n') = text := by
        apply dropWhile_append_of_notStarting
        · simpa using hbody
        · intro c hc
          rcases hend with rfl | hend
          · contradiction
          · rw [hend] at hc
            cases hc
            rfl
      rw [skipTrivia, if_neg (by decide), if_pos rfl]
      simp only [hdrop, ih]

theorem skipTrivia_skipTrivia (text : List Char) :
    skipTrivia (skipTrivia text) = skipTrivia text :=
  (trivia_skipTrivia text).skipTrivia_eq.symm

/-- Whether trivia may begin with a character. -/
def startsTrivia (c : Char) : Bool := Text.isBlank c || c == '/'

theorem skipTrivia_eq_self {text : List Char} (h : NotStarting startsTrivia text) :
    skipTrivia text = text := by
  cases text with
  | nil => rw [skipTrivia]
  | cons c rest =>
      have hc := h c rfl
      simp only [startsTrivia, Bool.or_eq_false_iff, beq_eq_false_iff_ne] at hc
      rw [skipTrivia.eq_def]
      dsimp only
      rw [if_neg (by simp [hc.1]), if_neg hc.2]

/-- A text that is cut at trivia begins with trivia, or is what comes after it. -/
theorem Trivia.head_cases {text rest : List Char} (h : Trivia text rest) {c : Char}
    (hc : text.head? = some c) : startsTrivia c = true ∨ text = rest := by
  cases h with
  | none => exact .inr rfl
  | blank hblank =>
      cases hc
      exact .inl (by simp [startsTrivia, hblank])
  | comment =>
      cases hc
      exact .inl rfl

/-! ## Names and words -/

theorem isNameChar_range {c : Char} (h : isNameChar c = true) :
    (((65 ≤ c.toNat ∧ c.toNat ≤ 90 ∨ 97 ≤ c.toNat ∧ c.toNat ≤ 122) ∨
      48 ≤ c.toNat ∧ c.toNat ≤ 57) ∨ c = '-') ∨ c = '_' := by
  simp only [isNameChar, Char.isAlphanum, Char.isAlpha, Char.isUpper, Char.isLower,
    Char.isDigit, Bool.or_eq_true, Bool.and_eq_true, decide_eq_true_eq, beq_iff_eq,
    ge_iff_le, UInt32.le_iff_toNat_le] at h
  exact h

theorem startsTrivia_of_isNameChar {c : Char} (h : isNameChar c = true) :
    startsTrivia c = false := by
  have hslash : c ≠ '/' := by
    rintro rfl
    contradiction
  rw [startsTrivia, beq_eq_false_iff_ne.mpr hslash, Bool.or_false]
  have hrange := isNameChar_range h
  rcases hrange with (hrange | rfl) | rfl
  · simp [Text.isBlank, Text.blankRanges]
    omega
  · decide
  · decide

theorem notStarting_of_scanName?_eq_none {text : List Char}
    (h : scanName? text = none) : NotStarting isNameChar text := by
  cases text with
  | nil => exact fun _ hc => nomatch hc
  | cons c rest =>
      rintro d ⟨⟩
      by_contra hname
      simp [scanName?, hname] at h

theorem scanName?_eq_none_of_notStarting {text : List Char}
    (h : NotStarting isNameChar text) : scanName? text = none := by
  cases text with
  | nil => rfl
  | cons c rest => simp [scanName?, h c rfl]

theorem scanName?_sound {text : List Char} {name rest hlt}
    (h : scanName? text = some ⟨name, rest, hlt⟩) :
    IsName name ∧ text = name.toList ++ rest ∧ NotStarting isNameChar rest := by
  unfold scanName? at h
  split at h
  · split at h
    · rename_i c rest hc
      cases h
      refine ⟨⟨by simp, ?_⟩, by simp, notStarting_dropWhile _ _⟩
      intro d hd
      simp only [String.toList_ofList, List.mem_cons] at hd
      rcases hd with rfl | hd
      · exact hc
      · exact List.mem_takeWhile_imp hd
    · contradiction
  · contradiction

theorem scanName?_complete {text rest : List Char} {name : String}
    (htext : text = name.toList ++ rest) (hname : IsName name)
    (hrest : NotStarting isNameChar rest) :
    ∃ hlt, scanName? text = some ⟨name, rest, hlt⟩ := by
  subst htext
  obtain ⟨hne, hchars⟩ := hname
  have hvalue : name = String.ofList name.toList := by simp
  generalize name.toList = chars at hne hchars hvalue
  subst hvalue
  cases chars with
  | nil => contradiction
  | cons c chars =>
      rw [List.forall_mem_cons] at hchars
      have hshort : rest.length < (c :: chars ++ rest).length := by
        rw [List.length_append, List.length_cons]
        omega
      refine ⟨hshort, ?_⟩
      simp only [List.cons_append, scanName?, if_pos hchars.1,
        takeWhile_append_of_notStarting hchars.2 hrest,
        dropWhile_append_of_notStarting hchars.2 hrest]

theorem scanWord?_sound {text : List Char} {word rest hlt}
    (h : scanWord? text = some ⟨word, rest, hlt⟩) :
    IsWord word ∧ text = quoted word rest := by
  unfold scanWord? at h
  split at h
  · rename_i body
    split at h
    · rename_i rest hdrop
      split at h
      · contradiction
      · rename_i hempty
        cases h
        refine ⟨⟨by simpa using hempty, ?_⟩, ?_⟩
        · intro c hc
          rw [String.toList_ofList] at hc
          exact List.mem_takeWhile_imp hc
        · rw [quoted, String.toList_ofList, ← hdrop, List.takeWhile_append_dropWhile]
    · contradiction
  · contradiction

theorem scanWord?_complete {text rest : List Char} {word : String}
    (htext : text = quoted word rest) (hword : IsWord word) :
    ∃ hlt, scanWord? text = some ⟨word, rest, hlt⟩ := by
  subst htext
  obtain ⟨hne, hchars⟩ := hword
  have hquote : NotStarting isWordChar ('"' :: rest) := by
    rintro c ⟨⟩
    rfl
  have hdrop := dropWhile_append_of_notStarting hchars hquote
  have htake := takeWhile_append_of_notStarting hchars hquote
  refine ⟨by simp [quoted]; omega, ?_⟩
  simp only [quoted, scanWord?]
  split
  · rename_i rest' hrest
    rw [hdrop] at hrest
    cases hrest
    simp [htake, hne]
  · rename_i hother
    exact absurd hdrop (hother rest)

/-! ## Where a token begins -/

theorem isNameChar_of_head? {name : String} (h : IsName name) {rest : List Char}
    {c : Char} (hc : (name.toList ++ rest).head? = some c) : isNameChar c = true := by
  obtain ⟨hne, hchars⟩ := h
  cases hname : name.toList with
  | nil => contradiction
  | cons d chars =>
      rw [hname] at hc hchars
      cases hc
      exact hchars _ List.mem_cons_self

theorem not_notStarting_name_append {name : String} (h : IsName name)
    (rest : List Char) : ¬ NotStarting isNameChar (name.toList ++ rest) := by
  obtain ⟨hne, hchars⟩ := h
  cases hname : name.toList with
  | nil => contradiction
  | cons d chars =>
      intro hnot
      have hfalse := hnot d rfl
      rw [hchars d (by simp [hname])] at hfalse
      contradiction

theorem skipTrivia_name_append {name : String} (h : IsName name) (rest : List Char) :
    skipTrivia (name.toList ++ rest) = name.toList ++ rest := by
  apply skipTrivia_eq_self
  intro c hc
  exact startsTrivia_of_isNameChar (isNameChar_of_head? h hc)

theorem startsTrivia_of_continuesNumber {c : Char}
    (h : Decimal.continuesNumber c = true) : startsTrivia c = false := by
  simp only [Decimal.continuesNumber, Bool.or_eq_true, beq_iff_eq] at h
  rcases h with ((hdigit | rfl) | rfl) | rfl
  · apply startsTrivia_of_isNameChar
    simp [isNameChar, Char.isAlphanum, hdigit]
  · decide
  · decide
  · decide

theorem skipTrivia_number_append {number : Decimal.NumberText} (h : number.WellFormed)
    (rest : List Char) : skipTrivia (number.chars ++ rest) = number.chars ++ rest := by
  apply skipTrivia_eq_self
  intro c hc
  apply startsTrivia_of_continuesNumber
  rw [Decimal.NumberText.chars_eq, List.append_assoc] at hc
  cases hwhole : number.whole with
  | nil =>
      cases hfraction : number.fraction with
      | none => exact absurd hwhole (h.whole_ne_nil hfraction)
      | some digits =>
          rw [hwhole, hfraction] at hc
          cases hc
          rfl
  | cons d rest =>
      have hd := h.whole d (by simp [hwhole])
      rw [hwhole] at hc
      cases hc
      simp [Decimal.continuesNumber, hd]

/-- A number ends where trivia begins. -/
theorem Trivia.notStarting_continuesNumber {text rest : List Char} (h : Trivia text rest)
    (hrest : NotStarting Decimal.continuesNumber rest) :
    NotStarting Decimal.continuesNumber text := by
  intro c hc
  rcases h.head_cases hc with htrivia | rfl
  · by_contra hnumber
    rw [startsTrivia_of_continuesNumber (by simpa using hnumber)] at htrivia
    contradiction
  · exact hrest c hc

theorem skipTrivia_quoted (word : String) (rest : List Char) :
    skipTrivia (quoted word rest) = quoted word rest := by
  apply skipTrivia_eq_self
  rintro c ⟨⟩
  rfl

end GrammarText

end WeightedParsing
