/-!
# Cuts

A scanner takes characters off the front of a text. A cut of `cs` is what it took and what it left,
together with the fact that the two make up `cs`, so no scanner can lose or invent a character and
none can lengthen a text.
-/

namespace EmailMarkup.Text

/-- A text cut in two. -/
structure Cut (cs : List Char) where
  taken : List Char
  rest : List Char
  whole : taken ++ rest = cs

namespace Cut

/-- Takes nothing. -/
def nothing (cs : List Char) : Cut cs :=
  { taken := [], rest := cs, whole := rfl }

/-- Takes one character and then what a cut takes. -/
def cons (c : Char) {cs : List Char} (k : Cut cs) : Cut (c :: cs) :=
  { taken := c :: k.taken, rest := k.rest, whole := by rw [List.cons_append, k.whole] }

/-- Takes what a cut takes and then what a cut of the rest takes. -/
def andThen {cs : List Char} (k : Cut cs) (next : Cut k.rest) : Cut cs :=
  { taken := k.taken ++ next.taken
    rest := next.rest
    whole := by rw [List.append_assoc, next.whole, k.whole] }

/-- Takes characters as long as they satisfy `p`. -/
def span (p : Char → Bool) (cs : List Char) : Cut cs :=
  { taken := cs.takeWhile p, rest := cs.dropWhile p, whole := List.takeWhile_append_dropWhile }

/-- The rest is no longer than the text. -/
theorem length_rest_le {cs : List Char} (k : Cut cs) : k.rest.length ≤ cs.length := by
  have := congrArg List.length k.whole
  rw [List.length_append] at this
  omega

end Cut

end EmailMarkup.Text
