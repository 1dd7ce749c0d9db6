import EmailMarkup.Cascade.Merge
import EmailMarkup.Cascade.Sheet
import EmailMarkup.Html.Entity
import EmailMarkup.Html.Reader
import EmailMarkup.Selector.Match

/-!
# Inlining style sheets

Many mail programs look at the `style` of an element and at no style sheet, so the sheets are worked
into the styles of the elements that their rules select.
-/

namespace EmailMarkup.Cascade

open EmailMarkup.Css EmailMarkup.Html EmailMarkup.Text

/-- Elements that are not shown and take no style. -/
def unstyled : List String :=
  ["html", "head", "title", "meta", "link", "style", "script", "base"]

/-- The declarations of the rules that select an element. -/
def ruled (rules : List StyleRule) (p : Place) : List Declaration :=
  (rules.filter fun r => r.selector.selects p).flatMap StyleRule.declarations

/-- The declarations in an element's own style. -/
def ownStyle (t : Tag) : List Declaration :=
  match t.attribute? "style" with
  | some style => readDeclarations (unescape style)
  | none => []

/-- The tags of an element with the style that rules, weakest first, and its own style make. An
element that no rule has anything for is left as it is. -/
def restyle (rules : List StyleRule) (p : Place) : Tag :=
  if unstyled.contains (lower p.tag.name) then p.tag
  else
    let winners := Winners.ofRules (ruled rules p)
    -- An element that no rule selects keeps its style to the letter, unmerged.
    if winners.isEmpty then p.tag
    else p.tag.setAttribute "style" (escapeAttribute (winners.addStyle (ownStyle p.tag)).style)

/-- A changed text and what there is to report. -/
structure Outcome where
  html : String
  reports : List Diagnostic
  deriving Repr

/-- Works style sheets into the styles of the elements they select. Without any rule the text is
left as it is. -/
def inlineSheets (html : String) (sheets : List String) : Outcome :=
  let sheet := Sheet.read ("\n".intercalate sheets)
  if sheet.rules.isEmpty then { html, reports := sheet.reports }
  else
    { html := ((Document.read html).updateInOrder (restyle sheet.ranked)).print
      reports := sheet.reports }

end EmailMarkup.Cascade
