import Mathlib.Data.List.TakeWhile
import WeightedParsing.Text.Blank

/-!
# Runs of characters and words

A scanner takes the characters of a class as long as they come.  What it leaves does not
begin with such a character, and that is how far a run reaches.  The words of a text are
its runs of characters that are not blank: a text is made of words with blanks around them
in exactly one way.
-/

namespace WeightedParsing

/-- A text does not begin with a character of a class. -/
def NotStarting (p : Char → Bool) (text : List Char) : Prop :=
  ∀ c, text.head? = some c → p c = false

theorem takeWhile_append_of_notStarting {p : Char → Bool} {body rest : List Char}
    (hbody : ∀ c ∈ body, p c = true) (hrest : NotStarting p rest) :
    (body ++ rest).takeWhile p = body := by
  rw [List.takeWhile_append_of_pos hbody]
  cases rest with
  | nil => simp
  | cons c rest => simp [hrest c rfl]

theorem dropWhile_append_of_notStarting {p : Char → Bool} {body rest : List Char}
    (hbody : ∀ c ∈ body, p c = true) (hrest : NotStarting p rest) :
    (body ++ rest).dropWhile p = rest := by
  rw [List.dropWhile_append_of_pos hbody]
  cases rest with
  | nil => rfl
  | cons c rest => simp [hrest c rfl]

theorem notStarting_dropWhile (p : Char → Bool) (text : List Char) :
    NotStarting p (text.dropWhile p) := by
  intro c hc
  have hne : text.dropWhile p ≠ [] := by
    intro h
    simp [h] at hc
  have hhead := List.head_dropWhile_not p hne
  rw [List.head?_eq_some_head hne, Option.some.injEq] at hc
  rw [← hc]
  exact hhead

namespace Text

/-! ## Words -/

/-- A text consists of the given words, with blanks before and after them and at least one
blank between any two. -/
inductive Separated : List Char → List (List Char) → Prop where
  | blanks {text : List Char} : (∀ c ∈ text, isBlank c = true) → Separated text []
  | word {blanks word rest : List Char} {words : List (List Char)} :
      (∀ c ∈ blanks, isBlank c = true) → word ≠ [] → (∀ c ∈ word, isBlank c = false) →
      (∀ c, rest.head? = some c → isBlank c = true) → Separated rest words →
      Separated (blanks ++ (word ++ rest)) (word :: words)

theorem separated_words (text : List Char) : Separated text (words text) := by
  fun_induction words text with
  | case1 text hskip =>
      apply Separated.blanks
      rw [List.dropWhile_eq_nil_iff] at hskip
      exact hskip
  | case2 text c rest hskip ih =>
      have hsplit : text = text.takeWhile isBlank ++ ((c :: rest.takeWhile fun d => !isBlank d) ++
          rest.dropWhile fun d => !isBlank d) := by
        rw [List.cons_append, List.takeWhile_append_dropWhile, ← hskip,
          List.takeWhile_append_dropWhile]
      have hfirst := notStarting_dropWhile isBlank text c (by rw [hskip]; rfl)
      have hrest := notStarting_dropWhile (fun d => !isBlank d) rest
      rw [hsplit]
      refine .word (fun _ => List.mem_takeWhile_imp) (List.cons_ne_nil _ _) ?_ ?_ ih
      · intro d hd
        rcases List.mem_cons.mp hd with rfl | hd
        · exact hfirst
        · simpa using List.mem_takeWhile_imp hd
      · intro d hd
        simpa using hrest d hd

theorem Separated.words_eq {text : List Char} {ws : List (List Char)}
    (h : Separated text ws) : words text = ws := by
  induction h with
  | blanks hblank =>
      rw [words]
      split
      · rfl
      · rename_i hskip
        rw [List.dropWhile_eq_nil_iff.mpr hblank] at hskip
        contradiction
  | @word blanks word rest ws hblanks hne hword hrest _ ih =>
      obtain ⟨c, word, rfl⟩ := List.exists_cons_of_ne_nil hne
      rw [List.forall_mem_cons] at hword
      have hskip : (blanks ++ (c :: word ++ rest)).dropWhile isBlank = c :: (word ++ rest) := by
        apply dropWhile_append_of_notStarting hblanks
        rintro d ⟨⟩
        exact hword.1
      have hinside : ∀ d ∈ word, (!isBlank d) = true := by simpa using hword.2
      have hstop : NotStarting (fun d => !isBlank d) rest := by
        intro d hd
        simpa using hrest d hd
      rw [words]
      split
      · rename_i hnone
        rw [hskip] at hnone
        contradiction
      · rename_i d tail hsome
        rw [hskip] at hsome
        obtain ⟨rfl, rfl⟩ := List.cons.inj hsome
        rw [takeWhile_append_of_notStarting hinside hstop,
          dropWhile_append_of_notStarting hinside hstop, ih]

theorem words_eq_iff {text : List Char} {ws : List (List Char)} :
    words text = ws ↔ Separated text ws :=
  ⟨fun h => h ▸ separated_words text, Separated.words_eq⟩

end Text

end WeightedParsing
