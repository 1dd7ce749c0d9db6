/-!
# Blank characters

A character is blank when it has the Unicode property `White_Space`. Trimming and the division of
a text into words go by this class: a no-break space or an ideographic space ends a word, a
zero-width space does not.
-/

namespace EmailMarkup.Text

/-- Blank characters: the Unicode property `White_Space`. -/
def isBlank (c : Char) : Bool :=
  let n := c.toNat
  (0x9 ≤ n && n ≤ 0xD) || n == 0x20 || n == 0x85 || n == 0xA0 || n == 0x1680 ||
    (0x2000 ≤ n && n ≤ 0x200A) || n == 0x2028 || n == 0x2029 || n == 0x202F || n == 0x205F ||
    n == 0x3000

/-- Control characters: the Unicode category `Cc`. -/
def isControl (c : Char) : Bool :=
  let n := c.toNat
  n ≤ 0x1F || (0x7F ≤ n && n ≤ 0x9F)

/-- Drops the blanks at the start. -/
def trimLeft (cs : List Char) : List Char :=
  cs.dropWhile isBlank

/-- Drops the blanks at the end. -/
def trimRight (cs : List Char) : List Char :=
  (cs.reverse.dropWhile isBlank).reverse

/-- Drops the blanks at both ends. -/
def trimChars (cs : List Char) : List Char :=
  trimRight (trimLeft cs)

/-- Drops the blanks at both ends. -/
def trim (s : String) : String :=
  String.ofList (trimChars s.toList)

/-- Whether a text has no character but blanks. -/
def allBlank (s : String) : Bool :=
  s.toList.all isBlank

/-- Cuts a list at every element that satisfies `p`, dropping that element. There is one piece more
than there are cuts, and pieces may be empty. -/
def splitWhere {α : Type} (p : α → Bool) : List α → List (List α)
  | [] => [[]]
  | c :: cs =>
    if p c then [] :: splitWhere p cs
    -- There is always a first piece; the other case only makes the match complete.
    else match splitWhere p cs with
      | [] => [[c]]
      | piece :: pieces => (c :: piece) :: pieces

/-- The maximal runs of characters that are not blank. -/
def wordsOf (cs : List Char) : List (List Char) :=
  (splitWhere isBlank cs).filter fun w => !w.isEmpty

/-- The maximal runs of characters that are not blank. -/
def words (s : String) : List String :=
  (wordsOf s.toList).map String.ofList

/-- The pieces of a text between its commas. -/
def commaSeparated (s : String) : List String :=
  (splitWhere (· == ',') s.toList).map String.ofList

end EmailMarkup.Text
