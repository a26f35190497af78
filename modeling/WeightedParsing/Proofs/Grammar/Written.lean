import WeightedParsing.Grammar.Text

/-!
# How a grammar is written

The format of grammar texts, told apart from how they are read.  Each relation holds
of a text, of what is written at its front and of the rest after it.  Nothing here says
that a name or a number ends where no longer one could; where that matters, it follows
from what has to come next.
-/

namespace WeightedParsing

namespace Decimal

def ExponentText.WellFormed (text : ExponentText) : Prop :=
  (text.letter = 'e' ∨ text.letter = 'E') ∧
    (text.sign = none ∨ text.sign = some '+' ∨ text.sign = some '-') ∧
    text.digits ≠ [] ∧ ∀ c ∈ text.digits, c.isDigit = true

/-- Digits with an optional point before the last of them, and an optional exponent:
`[0-9]*\.?[0-9]+([eE][-+]?[0-9]+)?`. -/
structure NumberText.WellFormed (number : NumberText) : Prop where
  whole : ∀ c ∈ number.whole, c.isDigit = true
  whole_ne_nil : number.fraction = none → number.whole ≠ []
  fraction : ∀ digits, number.fraction = some digits →
    digits ≠ [] ∧ ∀ c ∈ digits, c.isDigit = true
  exponent : ∀ text, number.exponent = some text → text.WellFormed

end Decimal

namespace GrammarText

/-- One or more letters, digits, hyphens and underscores. -/
def IsName (name : String) : Prop :=
  name.toList ≠ [] ∧ ∀ c ∈ name.toList, isNameChar c = true

/-- One or more characters that are neither quotes nor blank. -/
def IsWord (word : String) : Prop :=
  word.toList ≠ [] ∧ ∀ c ∈ word.toList, isWordChar c = true

def quoted (word : String) (rest : List Char) : List Char :=
  '"' :: (word.toList ++ '"' :: rest)

/-- Any mix of blanks and comments.  A comment runs to the next newline or to the end
of the text. -/
inductive Trivia : List Char → List Char → Prop where
  | none (text : List Char) : Trivia text text
  | blank {c : Char} {text rest : List Char} : Text.isBlank c = true →
      Trivia text rest → Trivia (c :: text) rest
  | comment {body text rest : List Char} : (∀ c ∈ body, c ≠ '\n') →
      (text = [] ∨ text.head? = some '\n') → Trivia text rest →
      Trivia ('/' :: '/' :: (body ++ text)) rest

/-- Trivia of at least one character. -/
def Gap (text rest : List Char) : Prop := Trivia text rest ∧ text ≠ rest

/-- One or more quoted words with trivia between them. -/
inductive Words : List Char → List RightItem → List Char → Prop where
  | last {word : String} {rest : List Char} : IsWord word →
      Words (quoted word rest) [.word word] rest
  | cons {word : String} {items : List RightItem} {text next rest : List Char} :
      IsWord word → Trivia text next → Words next items rest →
      Words (quoted word text) (.word word :: items) rest

/-- Two names with a gap between them, or quoted words. -/
inductive RightSide : List Char → List RightItem → List Char → Prop where
  | names {left right : String} {text rest : List Char} : IsName left →
      Gap text (right.toList ++ rest) → IsName right →
      RightSide (left.toList ++ text) [.symbol left, .symbol right] rest
  | words {text rest : List Char} {items : List RightItem} : Words text items rest →
      RightSide text items rest

inductive OptionalType : List Char → Option String → List Char → Prop where
  | absent (text : List Char) : OptionalType text none text
  | written {name : String} {text afterName next rest : List Char} :
      Trivia text (name.toList ++ afterName) → IsName name →
      Trivia afterName ('>' :: next) → Trivia next rest →
      OptionalType ('<' :: text) (some name) rest

/-- A weight that is not written is one.  A written weight denotes a finite float. -/
inductive OptionalWeight : List Char → RuleWeight Float → List Char → Prop where
  | absent (text : List Char) : OptionalWeight text defaultWeight text
  | written {number : Decimal.NumberText} {weight : RuleWeight Float}
      {text afterNumber rest : List Char} :
      Trivia text (number.chars ++ afterNumber) → number.WellFormed →
      number.toFloat.isFinite = true → weight.val = number.toFloat →
      Trivia afterNumber rest → OptionalWeight (':' :: text) weight rest

inductive WrittenRule : List Char → RuleSpec Float → List Char → Prop where
  | mk {parent : String} {right : List RightItem} {ruleType : Option String}
      {weight : RuleWeight Float}
      {afterParent afterArrow start afterRight atType atWeight rest : List Char} :
      IsName parent → Gap afterParent ('-' :: '>' :: afterArrow) →
      Trivia afterArrow start → RightSide start right afterRight →
      Trivia afterRight atType → OptionalType atType ruleType atWeight →
      OptionalWeight atWeight weight (';' :: rest) →
      WrittenRule (parent.toList ++ afterParent) { parent, right, ruleType, weight } rest

/-- One or more rules, each followed by trivia, up to the end of the text. -/
inductive WrittenRules : List Char → List (RuleSpec Float) → Prop where
  | last {spec : RuleSpec Float} {text rest : List Char} : WrittenRule text spec rest →
      Trivia rest [] → WrittenRules text [spec]
  | cons {spec : RuleSpec Float} {specs : List (RuleSpec Float)}
      {text rest next : List Char} : WrittenRule text spec rest → Trivia rest next →
      WrittenRules next specs → WrittenRules text (spec :: specs)

/-- A whole text: trivia and then rules. -/
def Written (text : List Char) (specs : List (RuleSpec Float)) : Prop :=
  ∃ start, Trivia text start ∧ WrittenRules start specs

end GrammarText

end WeightedParsing
