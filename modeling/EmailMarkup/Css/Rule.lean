import EmailMarkup.Css.Declaration
import EmailMarkup.Text.Search

/-!
# Rules of a style sheet

A style sheet is a list of rules, each a selector list and a declaration block. At-rules are passed
over, together with their blocks, and so are the marks of HTML comments between rules. A rule
without a block at the end of the sheet is none.
-/

namespace EmailMarkup.Css

open EmailMarkup.Text

/-- A rule as written: the text before its block, without comments, and its declarations. -/
structure Rule where
  selectors : String
  declarations : List Declaration
  deriving DecidableEq, Repr

/-- What follows the comment that a text begins with, if that comment is closed. -/
def afterComment? (cs : List Char) : Option (List Char) :=
  (after? "/*".toList cs).bind fun body => (splitAtMark? "*/".toList body).map Prod.snd

/-- What follows a comment is shorter than the text that begins with it. -/
theorem length_of_afterComment? {cs next : List Char} (h : afterComment? cs = some next) :
    next.length < cs.length := by
  obtain ⟨body, hopen, hclose⟩ := Option.bind_eq_some_iff.mp h
  obtain ⟨⟨comment, rest⟩, hmark, rfl⟩ := Option.map_eq_some_iff.mp hclose
  have h₁ := length_of_after? hopen
  have h₂ := length_of_splitAtMark? hmark
  have h₃ : "/*".toList.length = 2 := by decide
  simp only at *
  omega

/-- Takes out comments that are closed. -/
def stripComments (cs : List Char) : List Char :=
  match cs with
  | [] => []
  | c :: rest =>
    match h : afterComment? (c :: rest) with
    | some next =>
      have := length_of_afterComment? h
      stripComments next
    | none => c :: stripComments rest
termination_by cs.length
decreasing_by all_goals (simp only [List.length_cons] at *; omega)

/-- Whether a component may stand between rules without meaning. -/
def betweenRules (c : Component) : Bool :=
  c.isGap || c.isKind .htmlMark

/-- Whether a component begins an at-rule. -/
def startsAtRule : Component → Bool
  | .token t => match t.kind with
    | .atKeyword _ => true
    | _ => false
  | .block .. => false

/-- What follows the block that ends a selector list is shorter than the list with its block. -/
theorem length_of_dropWhile_cons {p : Component → Bool} {cs next : List Component} {d : Component}
    (h : cs.dropWhile p = d :: next) : next.length < cs.length := by
  have hle := (List.dropWhile_sublist (l := cs) p).length_le
  rw [h, List.length_cons] at hle
  exact hle

/-- The rules among components. -/
def rulesOf (cs : List Component) : List Rule :=
  match cs with
  | [] => []
  | c :: rest =>
    have := length_dropThrough_le endsAtRule rest
    if betweenRules c then rulesOf rest
    else if startsAtRule c then rulesOf (dropThrough endsAtRule rest)
    else
      let selectors := (c :: rest).takeWhile fun d => !d.isCurly
      match h : (c :: rest).dropWhile fun d => !d.isCurly with
      | .block _ _ content _ :: next =>
        have := length_of_dropWhile_cons h
        { selectors := String.ofList (trimChars (stripComments (sourceOf selectors)))
          declarations := declarationsOf content } :: rulesOf next
      -- The sheet ends before a block has come.
      | _ => []
termination_by cs.length
decreasing_by all_goals (simp only [List.length_cons] at *; omega)

/-- Reads a style sheet. -/
def readRules (css : String) : List Rule :=
  rulesOf (components css.toList)

end EmailMarkup.Css
