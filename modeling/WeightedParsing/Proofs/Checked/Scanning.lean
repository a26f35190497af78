import WeightedParsing.Proofs.Checked.TextReader
import WeightedParsing.Proofs.Grammar.Reading

/-!
# Scanning grammars with checks

A grammar is scanned by readers that match patterns at the front of a text.  A pattern only
tells what it matches; where the rest begins is counted in bytes.  Each reader reads what the
scanner of its name does, with the same errors.
-/

namespace WeightedParsing

open GrammarText

/-- A written rule with a weight that may still be any float. -/
structure UncheckedSpec where
  parent : String
  right : List RightItem
  ruleType : Option String
  weight : Float

def RuleSpec.unchecked (spec : RuleSpec Float) : UncheckedSpec :=
  { spec with weight := spec.weight.val }

namespace TextReader

/-! ## Patterns -/

def triviaPattern : Pattern := fun text =>
  let passed := text.take (text.length - (skipTrivia text).length)
  if passed.isEmpty then none else some passed

def namePattern : Pattern := fun text =>
  (scanName? text).map fun scan => scan.value.toList

def wordPattern : Pattern := fun text =>
  (scanWord? text).map fun scan => quoted scan.value []

def numberPattern : Pattern := fun text =>
  (Decimal.scanNumber text).map fun found => found.1.chars

/-! ## Readers -/

def readTrivia (text : String) : TextReader (Option String × String) :=
  optional triviaPattern text

/-- A text without its first and its last byte, which have to be quotes. -/
def unquote (quoted : String) : TextReader String := do
  let last ← check (Checked.sub quoted.utf8ByteSize 1)
  let word ← attempt (slice 1 last quoted)
  note (.unquoted word)
  return word

def readWord (text : String) : TextReader (String × String) := do
  let (quoted, rest) ← needed wordPattern .badWord text
  let word ← unquote quoted
  return (word, rest)

def readItem (text : String) : TextReader (Option RightItem × String) := do
  let (_, start) ← readTrivia text
  if start.toList.head? = some '"' then do
    let (word, rest) ← readWord start
    return (some (.word word), rest)
  else do
    let (name, rest) ← optional namePattern start
    return (name.map .symbol, rest)

def readRightSide (text : String) : TextReader (List RightItem × String) :=
  loop readItem text []

def readRuleType (text : String) : TextReader (Option String × String) := do
  let (opening, rest) ← optional (literal ['<']) text
  if opening.isNone then return (none, rest)
  else do
    let (_, start) ← readTrivia rest
    let (name, rest) ← needed namePattern .badRuleType start
    let (_, rest) ← readTrivia rest
    let (_, rest) ← needed (literal ['>']) .openRuleType rest
    return (some name, rest)

/-- The float of a text that has the form of a number. -/
def parseNumber (text : String) : Except ReadFault Float :=
  match Decimal.scanNumber text.toList with
  | some (number, []) => .ok number.toFloat
  | _ => .error (.notNumber text)

def readWeight (parent : String) (text : String) : TextReader (Float × String) := do
  let (colon, rest) ← optional (literal [':']) text
  if colon.isNone then return (1, rest)
  else do
    let (_, start) ← readTrivia rest
    let (written, rest) ← needed numberPattern (.badWeight parent) start
    let weight ← attempt (parseNumber written)
    if weight.isFinite then return (weight, rest)
    else throw (.infiniteWeight parent written.toList)

def readRule (text : String) : TextReader (UncheckedSpec × String) := do
  let (parent, rest) ← needed namePattern .badParent text
  let (_, rest) ← readTrivia rest
  let (_, rest) ← needed (literal ['-', '>']) .missingArrow rest
  let (right, rest) ← readRightSide rest
  if right.isEmpty then throw (.emptyRightSide parent)
  else do
    let (ruleType, rest) ← readRuleType rest
    let (_, rest) ← readTrivia rest
    let (weight, rest) ← readWeight parent rest
    let (_, rest) ← readTrivia rest
    let (_, rest) ← needed (literal [';']) (.missingSemicolon parent) rest
    return ({ parent, right, ruleType, weight }, rest)

def readNextRule (text : String) : TextReader (Option UncheckedSpec × String) := do
  let (_, start) ← readTrivia text
  if start.toList.isEmpty then return (none, start)
  else do
    let (spec, rest) ← readRule start
    return (some spec, rest)

def readRules (text : String) : TextReader (List UncheckedSpec × String) :=
  loop readNextRule text []

/-! ## Trivia, names and words -/

variable {input : String}

theorem literal_eq_some {chars text rest : List Char} (h : text = chars ++ rest) :
    literal chars text = some chars :=
  if_pos ⟨rest, h.symm⟩

theorem literal_eq_none {chars text : List Char} (h : ∀ rest, text ≠ chars ++ rest) :
    literal chars text = none := by
  apply if_neg
  rintro ⟨rest, heq⟩
  exact h rest heq.symm

theorem suffix_skipTrivia (text : List Char) : skipTrivia text <:+ text := by
  have htrivia := trivia_skipTrivia text
  generalize skipTrivia text = rest at htrivia ⊢
  induction htrivia with
  | none text => exact List.suffix_refl text
  | blank _ _ ih => exact ih.trans (List.suffix_cons _ _)
  | @comment body text rest _ _ _ ih =>
      exact ih.trans (List.suffix_append ('/' :: '/' :: body) text)

theorem reads_trivia (text : List Char) :
    Reads input text (readTrivia (String.ofList text))
      (.ok ((triviaPattern text).map String.ofList, skipTrivia text)) := by
  have htext := List.suffix_iff_eq_append.mp (suffix_skipTrivia text)
  by_cases hpassed : (text.take (text.length - (skipTrivia text).length)).isEmpty = true
  · have hnone : triviaPattern text = none := if_pos hpassed
    rw [List.isEmpty_iff.mp hpassed, List.nil_append] at htext
    rw [hnone, htext]
    exact reads_optional_none hnone
  · have hsome : triviaPattern text = some _ := if_neg hpassed
    rw [hsome]
    exact reads_optional_some hsome htext.symm

theorem reads_name {text : List Char} {scan : Scan String text.length}
    (h : scanName? text = some scan) :
    Reads input text (optional namePattern (String.ofList text))
      (.ok (some scan.value, scan.rest)) := by
  have hsome : namePattern text = some scan.value.toList := by
    rw [namePattern, h]
    rfl
  have hreads : Reads input _ _ _ := reads_optional_some hsome (scanName?_sound h).2.1
  rwa [String.ofList_toList] at hreads

theorem reads_needed_name {missing : List Char → GrammarError} {text : List Char}
    {scan : Scan String text.length} (h : scanName? text = some scan) :
    Reads input text (needed namePattern missing (String.ofList text))
      (.ok (scan.value, scan.rest)) :=
  (reads_name h).bind_ok (reads_pure input scan.rest scan.value)

theorem namePattern_eq_none {text : List Char} (h : scanName? text = none) :
    namePattern text = none := by
  rw [namePattern, h]
  rfl

theorem gives_unquote (word : String) (h : IsWord word) :
    Gives input (unquote (String.ofList (quoted word []))) (.ok word) := by
  have hquoted : String.ofList (quoted word []) = "\"" ++ word ++ "\"" := by
    apply String.toList_injective
    simp [quoted]
  have hlast : Checked.sub (String.ofList (quoted word [])).utf8ByteSize 1 =
      .ok ("\"" ++ word).utf8ByteSize := by
    rw [hquoted, String.utf8ByteSize_append]
    exact Checked.sub_eq (Nat.le_add_left _ _)
  have hslice : slice 1 ("\"" ++ word).utf8ByteSize (String.ofList (quoted word [])) =
      .ok word := by
    rw [hquoted]
    exact slice_append "\"" word "\""
  have hword : (ReadEvent.unquoted word).Sound input := by
    rintro rfl
    exact h.1 rfl
  exact (gives_check hlast).bind_ok ((gives_attempt hslice).bind_ok
    ((gives_note hword).bind_ok (gives_pure input word)))

theorem reads_word {text : List Char} {scan : Scan String text.length}
    (h : scanWord? text = some scan) :
    Reads input text (readWord (String.ofList text)) (.ok (scan.value, scan.rest)) := by
  obtain ⟨hword, htext⟩ := scanWord?_sound h
  have hsome : wordPattern text = some (quoted scan.value []) := by
    rw [wordPattern, h]
    rfl
  have hsplit : text = quoted scan.value [] ++ scan.rest :=
    htext.trans (by simp [quoted])
  exact (reads_needed_some hsome hsplit).bind_ok
    ((gives_unquote _ hword).bind_reads (reads_pure input scan.rest scan.value))

theorem reads_word_none {text : List Char} (h : scanWord? text = none) :
    Reads input text (readWord (String.ofList text)) (.error (.badWord text)) := by
  have hnone : wordPattern text = none := by
    rw [wordPattern, h]
    rfl
  exact (reads_needed_none hnone).bind_error

/-! ## Right-hand sides -/

theorem reads_item_word {text : List Char} {scan : Scan String (skipTrivia text).length}
    (hquote : (skipTrivia text).head? = some '"')
    (h : scanWord? (skipTrivia text) = some scan) :
    Reads input text (readItem (String.ofList text))
      (.ok (some (.word scan.value), scan.rest)) := by
  refine (reads_trivia text).bind_ok ?_
  dsimp only
  rw [String.toList_ofList, if_pos hquote]
  exact (reads_word h).bind_ok (reads_pure input scan.rest _)

theorem reads_item_badWord {text : List Char}
    (hquote : (skipTrivia text).head? = some '"')
    (h : scanWord? (skipTrivia text) = none) :
    Reads input text (readItem (String.ofList text))
      (.error (.badWord (skipTrivia text))) := by
  refine (reads_trivia text).bind_ok ?_
  dsimp only
  rw [String.toList_ofList, if_pos hquote]
  exact (reads_word_none h).bind_error

theorem reads_item_symbol {text : List Char} {scan : Scan String (skipTrivia text).length}
    (hquote : ¬ (skipTrivia text).head? = some '"')
    (h : scanName? (skipTrivia text) = some scan) :
    Reads input text (readItem (String.ofList text))
      (.ok (some (.symbol scan.value), scan.rest)) := by
  refine (reads_trivia text).bind_ok ?_
  dsimp only
  rw [String.toList_ofList, if_neg hquote]
  exact (reads_name h).bind_ok (reads_pure input scan.rest _)

theorem reads_item_none {text : List Char}
    (hquote : ¬ (skipTrivia text).head? = some '"')
    (h : scanName? (skipTrivia text) = none) :
    Reads input text (readItem (String.ofList text)) (.ok (none, skipTrivia text)) := by
  refine (reads_trivia text).bind_ok ?_
  dsimp only
  rw [String.toList_ofList, if_neg hquote]
  exact (reads_optional_none (namePattern_eq_none h)).bind_ok (reads_pure input _ _)

/-- By induction over the scanner: the loop has the items read so far in hand, which the
scanner puts in front once the rest is read. -/
theorem reads_items (text : List Char) (items : List RightItem) :
    Reads input text (loop readItem (String.ofList text) items)
      ((fun scan => (items ++ scan.value, scan.rest)) <$> scanRightSide text) := by
  fun_induction scanRightSide text generalizing items with
  | case1 text start _ hquote hscan => exact reads_loop_error (reads_item_badWord hquote hscan)
  | case2 text start hstart hquote name rest hlt hscan _ hrest ih =>
      have hnext := reads_loop_cons (reads_item_word hquote hscan)
        (Nat.lt_of_lt_of_le hlt hstart) ih items
      rwa [hrest] at hnext
  | case3 text start hstart hquote name rest hlt hscan _ _ _ hrest ih =>
      have hnext := reads_loop_cons (reads_item_word hquote hscan)
        (Nat.lt_of_lt_of_le hlt hstart) ih items
      rwa [hrest] at hnext
  | case4 text start _ hquote hscan =>
      simp only [Functor.map, Except.map, List.append_nil]
      exact reads_loop_done (reads_item_none hquote hscan)
  | case5 text start hstart hquote name rest hlt hscan _ hrest ih =>
      have hnext := reads_loop_cons (reads_item_symbol hquote hscan)
        (Nat.lt_of_lt_of_le hlt hstart) ih items
      rwa [hrest] at hnext
  | case6 text start hstart hquote name rest hlt hscan _ _ _ hrest ih =>
      have hnext := reads_loop_cons (reads_item_symbol hquote hscan)
        (Nat.lt_of_lt_of_le hlt hstart) ih items
      rwa [hrest] at hnext

theorem reads_rightSide (text : List Char) :
    Reads input text (readRightSide (String.ofList text))
      ((fun scan => (scan.value, scan.rest)) <$> scanRightSide text) :=
  reads_items text []

/-! ## Rules -/

theorem reads_optional_literal (chars : List Char) {text rest : List Char}
    (h : text = chars ++ rest) :
    Reads input text (optional (literal chars) (String.ofList text))
      (.ok (some (String.ofList chars), rest)) :=
  reads_optional_some (literal_eq_some h) h

theorem reads_needed_literal {missing : List Char → GrammarError}
    {chars text rest : List Char} (h : text = chars ++ rest) :
    Reads input text (needed (literal chars) missing (String.ofList text))
      (.ok (String.ofList chars, rest)) :=
  reads_needed_some (literal_eq_some h) h

theorem reads_ruleType (text : List Char) :
    Reads input text (readRuleType (String.ofList text))
      ((fun scan => (scan.value, scan.rest)) <$> scanRuleType text) := by
  unfold scanRuleType
  split
  · rename_i body
    refine (reads_optional_literal ['<'] rfl).bind_ok ((reads_trivia body).bind_ok ?_)
    dsimp only
    split
    · rename_i hscan
      exact (reads_needed_none (namePattern_eq_none hscan)).bind_error
    · rename_i name rest _ hscan
      refine (reads_needed_name hscan).bind_ok ((reads_trivia rest).bind_ok ?_)
      dsimp only
      split
      · rename_i more hclose
        exact (reads_needed_literal hclose).bind_ok (reads_pure input more _)
      · rename_i hclose
        exact (reads_needed_none (literal_eq_none hclose)).bind_error
  · rename_i hopening
    exact (reads_optional_none (literal_eq_none hopening)).bind_ok (reads_pure input text _)

/-- A number that is found at the front of a text is read in full on its own. -/
theorem parseNumber_eq {text rest : List Char} {number : Decimal.NumberText}
    (h : Decimal.scanNumber text = some (number, rest)) :
    parseNumber (String.ofList number.chars) = .ok number.toFloat := by
  have hend : NotStarting Decimal.continuesNumber [] := fun _ hc => nomatch hc
  have hscan := Decimal.scanNumber_complete (Decimal.scanNumber_sound h).1 hend
  rw [List.append_nil] at hscan
  rw [parseNumber, String.toList_ofList, hscan]

theorem reads_number {missing : List Char → GrammarError} {text rest : List Char}
    {number : Decimal.NumberText} (h : Decimal.scanNumber text = some (number, rest)) :
    Reads input text (needed numberPattern missing (String.ofList text))
      (.ok (String.ofList number.chars, rest)) := by
  have hsome : numberPattern text = some number.chars := by
    rw [numberPattern, h]
    rfl
  exact reads_needed_some hsome (Decimal.scanNumber_sound h).2

theorem numberPattern_eq_none {text : List Char} (h : Decimal.scanNumber text = none) :
    numberPattern text = none := by
  rw [numberPattern, h]
  rfl

theorem reads_weight (parent : String) (text : List Char) :
    Reads input text (readWeight parent (String.ofList text))
      ((fun scan => (scan.value.val, scan.rest)) <$> scanWeight parent text) := by
  unfold scanWeight
  split
  · rename_i body
    refine (reads_optional_literal [':'] rfl).bind_ok ((reads_trivia body).bind_ok ?_)
    dsimp only
    split
    · rename_i hscan
      exact (reads_needed_none (numberPattern_eq_none hscan)).bind_error
    · rename_i number rest hscan
      refine (reads_number hscan).bind_ok
        ((gives_attempt (parseNumber_eq hscan)).bind_reads ?_)
      cases hweight : weightOfNumber? number with
      | none =>
          have hinfinite : ¬ number.toFloat.isFinite = true := by
            intro hfinite
            have hsome : weightOfNumber? number = some ⟨number.toFloat, number.le_toFloat⟩ :=
              weightOfNumber?_eq_some.mpr ⟨hfinite, rfl⟩
            rw [hweight] at hsome
            contradiction
          dsimp only
          rw [if_neg hinfinite, String.toList_ofList]
          exact reads_throw input rest _
      | some weight =>
          obtain ⟨hfinite, hvalue⟩ := weightOfNumber?_eq_some.mp hweight
          dsimp only
          rw [if_pos hfinite, ← hvalue]
          exact reads_pure input rest _
  · rename_i hcolon
    exact (reads_optional_none (literal_eq_none hcolon)).bind_ok (reads_pure input text _)

theorem reads_rule (text : List Char) :
    Reads input text (readRule (String.ofList text))
      ((fun scan => (scan.value.unchecked, scan.rest)) <$> scanRule text) := by
  unfold scanRule
  split
  · rename_i hparent
    exact (reads_needed_none (namePattern_eq_none hparent)).bind_error
  · rename_i parent afterName _ hparent
    refine (reads_needed_name hparent).bind_ok ((reads_trivia afterName).bind_ok ?_)
    dsimp only
    split
    · rename_i afterArrow harrow
      refine (reads_needed_literal harrow).bind_ok ?_
      rw [map_bind]
      refine (reads_rightSide afterArrow).bind_map ?_
      rintro ⟨right, afterRight, _⟩
      dsimp only
      split
      · exact reads_throw input afterRight _
      rw [map_bind]
      refine (reads_ruleType afterRight).bind_map ?_
      rintro ⟨ruleType, afterType, _⟩
      refine (reads_trivia afterType).bind_ok ?_
      rw [map_bind]
      refine (reads_weight parent (skipTrivia afterType)).bind_map ?_
      rintro ⟨weight, afterWeight, _⟩
      refine (reads_trivia afterWeight).bind_ok ?_
      dsimp only
      split
      · rename_i rest hend
        exact (reads_needed_literal hend).bind_ok (reads_pure input rest _)
      · rename_i hend
        exact (reads_needed_none (literal_eq_none hend)).bind_error
    · rename_i harrow
      exact (reads_needed_none (literal_eq_none harrow)).bind_error

theorem reads_nextRule_none {text : List Char} (h : (skipTrivia text).isEmpty = true) :
    Reads input text (readNextRule (String.ofList text)) (.ok (none, skipTrivia text)) := by
  refine (reads_trivia text).bind_ok ?_
  dsimp only
  rw [String.toList_ofList, if_pos h]
  exact reads_pure input _ none

theorem reads_nextRule {text : List Char} (h : ¬ (skipTrivia text).isEmpty = true) :
    Reads input text (readNextRule (String.ofList text))
      ((fun scan => (some scan.value.unchecked, scan.rest)) <$> scanRule (skipTrivia text)) := by
  refine (reads_trivia text).bind_ok ?_
  dsimp only
  rw [String.toList_ofList, if_neg h]
  rw [map_eq_pure_bind]
  exact (reads_rule (skipTrivia text)).bind_map fun scan => reads_pure input scan.rest _

theorem reads_rules (text : List Char) (items : List UncheckedSpec) :
    Reads input text (loop readNextRule (String.ofList text) items)
      ((fun specs => (items ++ specs.map RuleSpec.unchecked, [])) <$> scanRules text) := by
  fun_induction scanRules text generalizing items with
  | case1 text start hstart hempty =>
      have hturn : Reads input text (readNextRule (String.ofList text)) _ :=
        reads_nextRule_none hempty
      have hskip : skipTrivia text = [] := List.isEmpty_iff.mp hempty
      simp only [Functor.map, Except.map, List.map_nil, List.append_nil]
      rw [hskip] at hturn
      exact reads_loop_done hturn
  | case2 text start hstart hmore e hscan =>
      have hturn : Reads input text (readNextRule (String.ofList text)) _ :=
        reads_nextRule hmore
      rw [hscan] at hturn
      exact reads_loop_error hturn
  | case3 text start hstart hmore spec rest hlt hscan _ hrest ih =>
      have hturn : Reads input text (readNextRule (String.ofList text)) _ :=
        reads_nextRule hmore
      rw [hscan] at hturn
      have hnext := reads_loop_cons hturn (Nat.lt_of_lt_of_le hlt hstart) ih items
      rwa [hrest] at hnext
  | case4 text start hstart hmore spec rest hlt hscan _ hrest ih =>
      have hturn : Reads input text (readNextRule (String.ofList text)) _ :=
        reads_nextRule hmore
      rw [hscan] at hturn
      have hnext := reads_loop_cons hturn (Nat.lt_of_lt_of_le hlt hstart) ih items
      rwa [hrest] at hnext

end TextReader

end WeightedParsing
