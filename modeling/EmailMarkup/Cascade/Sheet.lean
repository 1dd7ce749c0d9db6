import EmailMarkup.Css.Rule
import EmailMarkup.Diagnostic

/-!
# Style sheets, one selector at a time

A rule with a list of selectors is as good as several rules, one for each of them, so that each has
a weight of its own. A rule that declares nothing is left out. So is, without a word, a selector
that depends on what the reader does; a text that is no selector is reported.
-/

namespace EmailMarkup.Cascade

open EmailMarkup.Css

/-- A selector with the declarations for what it selects. -/
structure StyleRule where
  selector : Selector
  declarations : List Declaration
  deriving Repr

/-- The rules of a sheet, in the order in which they are written, and what there is to report. -/
structure Sheet where
  rules : List StyleRule
  reports : List Diagnostic
  deriving Repr

/-- Two sheets, one after the other. -/
def Sheet.append (s t : Sheet) : Sheet :=
  { rules := s.rules ++ t.rules, reports := s.reports ++ t.reports }

/-- The sheet of one selector with its declarations. -/
def Sheet.ofSelector (declarations : List Declaration) (selector : String) : Sheet :=
  match Selector.read selector with
  | .ok selector => { rules := [{ selector, declarations }], reports := [] }
  -- Such a selector is well written, but has nothing to say about a document at rest.
  | .error (.dynamic _) => { rules := [], reports := [] }
  | .error fault => { rules := [], reports := [.sheetSelector fault] }

/-- The sheet of one rule as written. -/
def Sheet.ofRule (rule : Rule) : Sheet :=
  if rule.declarations.isEmpty then { rules := [], reports := [] }
  else ((Selector.splitList rule.selectors).map (ofSelector rule.declarations)).foldr append
    { rules := [], reports := [] }

/-- Reads a style sheet. -/
def Sheet.read (css : String) : Sheet :=
  ((readRules css).map ofRule).foldr append { rules := [], reports := [] }

/-- Whether the first of two rules is the weaker one, or as weak. -/
def StyleRule.weaker (r s : StyleRule) : Bool :=
  r.selector.specificity.le s.selector.specificity

/-- The rules from the weakest to the strongest; rules of one weight stay in the order in which they
are written. -/
def Sheet.ranked (s : Sheet) : List StyleRule :=
  s.rules.mergeSort StyleRule.weaker

end EmailMarkup.Cascade
