import WeightedParsing.Decimal.Reading
import WeightedParsing.Grammar.Spec
import WeightedParsing.Text.Blank

/-!
# The text of a grammar

Rules are written `parent -> left right <type> : weight;` or, with quoted words,
`parent -> "w1" "w2" <type> : weight;`, where type and weight are optional.
Blanks and comments, which run from `//` to the end of the line, may stand
between the parts.  Each reader takes a text and gives back what it read and the
rest, which is known to be short enough for the next turn of a loop.
-/

namespace WeightedParsing.GrammarText

/-- What was read off the front of a text, and a rest shorter than `bound`. -/
structure Scan (α : Type) (bound : Nat) where
  value : α
  rest : List Char
  rest_lt : rest.length < bound

def isNameChar (c : Char) : Bool := c.isAlphanum || c == '-' || c == '_'

def isWordChar (c : Char) : Bool := c != '"' && !Text.isBlank c

/-- Drops blanks and comments from the front of a text. -/
def skipTrivia (text : List Char) : List Char :=
  match text with
  | [] => []
  | c :: rest =>
      if Text.isBlank c then skipTrivia rest
      else if c = '/' then
        match rest with
        | '/' :: comment => skipTrivia (comment.dropWhile fun d => d != '\n')
        | _ => c :: rest
      else c :: rest
termination_by text.length
decreasing_by
  · simp
  · have := Text.length_dropWhile_le (fun d => d != '\n') comment
    simp only [List.length_cons]
    omega

theorem length_skipTrivia_le (text : List Char) :
    (skipTrivia text).length ≤ text.length := by
  fun_induction skipTrivia text with
  | case1 => simp
  | case2 c rest h ih => simp only [List.length_cons]; omega
  | case3 comment _ ih =>
      have := Text.length_dropWhile_le (fun d => d != '\n') comment
      simp only [List.length_cons]
      omega
  | case4 => simp
  | case5 => simp

theorem length_dropWhile_lt_cons (p : Char → Bool) (c : Char) (rest : List Char) :
    (rest.dropWhile p).length < (c :: rest).length := by
  rw [List.length_cons]
  exact Nat.lt_succ_of_le (Text.length_dropWhile_le p rest)

def scanName? (text : List Char) : Option (Scan String text.length) :=
  match text with
  | c :: rest =>
      if isNameChar c then
        some ⟨String.ofList (c :: rest.takeWhile isNameChar),
          rest.dropWhile isNameChar, length_dropWhile_lt_cons _ _ _⟩
      else none
  | [] => none

def scanWord? (text : List Char) : Option (Scan String text.length) :=
  match text with
  | '"' :: body =>
      match h : body.dropWhile isWordChar with
      | '"' :: rest =>
          if (body.takeWhile isWordChar).isEmpty then none
          else
            some ⟨String.ofList (body.takeWhile isWordChar), rest, by
              have := Text.length_dropWhile_le isWordChar body
              rw [h, List.length_cons] at this
              simp only [List.length_cons]
              omega⟩
      | _ => none
  | _ => none

/-- Reads the items of a right-hand side up to the first text that is none. -/
def scanRightSide (text : List Char) :
    Except GrammarError (Scan (List RightItem) (text.length + 1)) :=
  let start := skipTrivia text
  have hstart : start.length ≤ text.length := length_skipTrivia_le text
  if start.head? = some '"' then
    match scanWord? start with
    | none => .error (.badWord start)
    | some ⟨name, rest, hrest⟩ =>
        match scanRightSide rest with
        | .error e => .error e
        | .ok ⟨items, rest', hrest'⟩ =>
            .ok ⟨.word name :: items, rest', by omega⟩
  else
    match scanName? start with
    | none => .ok ⟨[], start, by omega⟩
    | some ⟨name, rest, hrest⟩ =>
        match scanRightSide rest with
        | .error e => .error e
        | .ok ⟨items, rest', hrest'⟩ =>
            .ok ⟨.symbol name :: items, rest', by omega⟩
termination_by text.length

def scanRuleType (text : List Char) :
    Except GrammarError (Scan (Option String) (text.length + 1)) :=
  match text with
  | '<' :: body =>
      let start := skipTrivia body
      have hstart : start.length ≤ body.length := length_skipTrivia_le body
      match scanName? start with
      | none => .error (.badRuleType start)
      | some ⟨name, rest, hrest⟩ =>
          match h : skipTrivia rest with
          | '>' :: more =>
              .ok ⟨some name, more, by
                have := length_skipTrivia_le rest
                rw [h, List.length_cons] at this
                simp only [List.length_cons]
                omega⟩
          | other => .error (.openRuleType other)
  | other => .ok ⟨none, other, by omega⟩

/-- The rule weight nearest to a written number, unless it is infinite. -/
def weightOfNumber? (number : Decimal.NumberText) : Option (RuleWeight Float) :=
  let weight := number.toFloat
  if h : Ranked.le 0 weight = true ∧ Ranked.lt weight (1 / 0) = true then
    some ⟨weight, h.1⟩
  else none

def defaultWeight : RuleWeight Float := ⟨1, by decide⟩

/-- Reads an optional colon and weight for the rule of `parent`. -/
def scanWeight (parent : String) (text : List Char) :
    Except GrammarError (Scan (RuleWeight Float) (text.length + 1)) :=
  match text with
  | ':' :: body =>
      let start := skipTrivia body
      have hstart : start.length ≤ body.length := length_skipTrivia_le body
      match h : Decimal.scanNumber start with
      | none => .error (.badWeight parent start)
      | some (number, rest) =>
          match weightOfNumber? number with
          | none => .error (.infiniteWeight parent number.chars)
          | some weight =>
              .ok ⟨weight, rest, by
                have := Decimal.length_scanNumber_le h
                simp only [List.length_cons]
                omega⟩
  | other => .ok ⟨defaultWeight, other, by omega⟩

/-- Reads one rule, its semicolon included. -/
def scanRule (text : List Char) :
    Except GrammarError (Scan (RuleSpec Float) text.length) :=
  match scanName? text with
  | none => .error (.badParent text)
  | some ⟨parent, afterName, hname⟩ =>
      match harrow : skipTrivia afterName with
      | '-' :: '>' :: afterArrow => do
          have hskip := length_skipTrivia_le afterName
          have hlen := congrArg List.length harrow
          let ⟨right, afterRight, hright⟩ ← scanRightSide afterArrow
          if right.isEmpty then .error (.emptyRightSide parent)
          else do
            let ⟨ruleType, afterType, htype⟩ ← scanRuleType afterRight
            have hskip' := length_skipTrivia_le afterType
            let ⟨weight, afterWeight, hweight⟩ ←
              scanWeight parent (skipTrivia afterType)
            match hend : skipTrivia afterWeight with
            | ';' :: rest =>
                .ok ⟨{ parent, right, ruleType, weight }, rest, by
                  have hskip'' := length_skipTrivia_le afterWeight
                  rw [hend] at hskip''
                  simp only [List.length_cons] at hlen hskip''
                  omega⟩
            | other => .error (.missingSemicolon parent other)
      | other => .error (.missingArrow other)

def scanRules (text : List Char) :
    Except GrammarError (List (RuleSpec Float)) :=
  let start := skipTrivia text
  have : start.length ≤ text.length := length_skipTrivia_le text
  if start.isEmpty then .ok []
  else
    match scanRule start with
    | .error e => .error e
    | .ok ⟨spec, rest, _⟩ =>
        match scanRules rest with
        | .error e => .error e
        | .ok specs => .ok (spec :: specs)
termination_by text.length

end WeightedParsing.GrammarText
