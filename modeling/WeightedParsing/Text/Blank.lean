/-!
# Blank characters and words

A character is blank when Unicode gives it the property `White_Space`.  A text
splits into words at its blank characters; blanks at either end, and runs of
blanks, leave no empty word behind.
-/

namespace WeightedParsing.Text

/-- The inclusive code point ranges of the property `White_Space`. -/
def blankRanges : List (Nat × Nat) :=
  [(0x0009, 0x000D), (0x0020, 0x0020), (0x0085, 0x0085), (0x00A0, 0x00A0),
    (0x1680, 0x1680), (0x2000, 0x200A), (0x2028, 0x2029), (0x202F, 0x202F),
    (0x205F, 0x205F), (0x3000, 0x3000)]

def isBlank (c : Char) : Bool :=
  blankRanges.any fun range => range.1 ≤ c.toNat && c.toNat ≤ range.2

theorem length_dropWhile_le (p : Char → Bool) (text : List Char) :
    (text.dropWhile p).length ≤ text.length :=
  (List.dropWhile_sublist p).length_le

/-- The maximal runs of characters that are not blank, in order. -/
def words (text : List Char) : List (List Char) :=
  match _skipped : text.dropWhile isBlank with
  | [] => []
  | c :: rest =>
      (c :: rest.takeWhile fun d => !isBlank d) ::
        words (rest.dropWhile fun d => !isBlank d)
termination_by text.length
decreasing_by
  have hskip := length_dropWhile_le isBlank text
  have hword := length_dropWhile_le (fun d => !isBlank d) rest
  rw [_skipped, List.length_cons] at hskip
  omega

end WeightedParsing.Text
