import EmailMarkup.Outlook.Conditional
import EmailMarkup.Proofs.Html.Nesting

/-!
# What browsers and Outlook see

A message is one text and two documents. To a browser a plain conditional block is a comment, and to
Outlook the marks around it are. `spans` cuts a text into its blocks and the characters outside of
them. `browserView` is what is left without the blocks, and `outlookView` what is left without their
marks.

`Steps cs s t` says what a part of a message does to the open elements of both documents at once. It
is put together from parts by `Steps.append`, from tags by `Steps.of_moves`, and a block takes a
step in Outlook's document only (`Steps.block`).
-/

set_option autoImplicit false

namespace EmailMarkup.Outlook

open EmailMarkup.Html EmailMarkup.Text

/-- A block, or a character outside of all blocks. -/
inductive Span
  | outside (c : Char)
  | block (content : List Char)

/-- The content of the block that a text begins with, and what follows the block. -/
def plainBlock? (cs : List Char) : Option (List Char × List Char) :=
  (after? opening.toList cs).bind (splitAtMark? closing.toList)

theorem length_of_plainBlock? {cs content next : List Char}
    (h : plainBlock? cs = some (content, next)) : next.length < cs.length := by
  obtain ⟨rest, hrest, hsplit⟩ := Option.bind_eq_some_iff.mp h
  have hopening := length_of_after? hrest
  have hclosing := length_of_splitAtMark? hsplit
  have hmark : opening.toList.length = 18 := by decide
  omega

/-- The blocks of a text and the characters outside of them, from left to right. An opening mark
that no closing mark follows opens no block. -/
def spans (cs : List Char) : List Span :=
  match cs with
  | [] => []
  | c :: rest =>
    match h : plainBlock? (c :: rest) with
    | some (content, next) =>
      have := length_of_plainBlock? h
      .block content :: spans next
    | none => .outside c :: spans rest
termination_by cs.length
decreasing_by all_goals (simp only [List.length_cons] at *; omega)

/-- A text without its blocks. -/
def browserView (cs : List Char) : List Char :=
  (spans cs).flatMap fun
    | .outside c => [c]
    | .block _ => []

/-- A text without the marks around its blocks. -/
def outlookView (cs : List Char) : List Char :=
  (spans cs).flatMap fun
    | .outside c => [c]
    | .block content => content

/-- The contents of the blocks of a text. -/
def blockContents (cs : List Char) : List (List Char) :=
  (spans cs).filterMap fun
    | .outside _ => none
    | .block content => some content

/-! ### Cutting a text -/

theorem spans_nil : spans [] = [] := by
  rw [spans]

/-- A text in which no block can begin is all outside. -/
theorem spans_of_apart {u : List Char} (h : Apart opening.toList u) (rest : List Char) :
    spans (u ++ rest) = u.map .outside ++ spans rest := by
  induction u with
  | nil => rfl
  | cons c u ih =>
    have hafter : after? opening.toList (c :: (u ++ rest)) = none :=
      after?_eq_none_iff.mpr (h.not_begins rest)
    have hnone : plainBlock? (c :: (u ++ rest)) = none := by
      rw [plainBlock?, hafter, Option.bind_none]
    rw [List.cons_append, spans]
    split
    · rename_i heq
      rw [hnone] at heq
      cases heq
    · rw [ih (apart_cons_iff.mp h).2, List.map_cons, List.cons_append]

/-- A block ends at its first closing mark. -/
theorem spans_block {content : List Char} (h : Apart closing.toList content) (rest : List Char) :
    spans (opening.toList ++ (content ++ (closing.toList ++ rest))) =
      .block content :: spans rest := by
  have hopening : after? opening.toList (opening.toList ++ (content ++ (closing.toList ++ rest))) =
      some (content ++ (closing.toList ++ rest)) := after?_eq_some_iff.mpr rfl
  have hclosing : splitAtMark? closing.toList (content ++ (closing.toList ++ rest)) =
      some (content, rest) := by
    refine splitAtMark?_append (by decide) content rest ?_
    rintro pre (_ | ⟨c, post⟩) rfl hpost
    · exact absurd rfl hpost
    · exact h.of_append.not_begins _
  have hblock : plainBlock? (opening.toList ++ (content ++ (closing.toList ++ rest))) =
      some (content, rest) := by
    rw [plainBlock?, hopening, Option.bind_some, hclosing]
  obtain ⟨c, cs, hcs⟩ : ∃ c cs, opening.toList ++ (content ++ (closing.toList ++ rest)) = c :: cs :=
    ⟨_, _, rfl⟩
  rw [hcs] at hblock ⊢
  rw [spans]
  split
  · rename_i heq
    rw [hblock, Option.some.injEq, Prod.mk.injEq] at heq
    rw [heq.1, heq.2]
  · rename_i heq
    rw [hblock] at heq
    cases heq

/-! ### Parts of a message -/

/-- The elements that are open in either document, innermost first. -/
structure Stacks where
  browser : List String
  outlook : List String

/-- What a part of a message does to the open elements of both documents, whatever follows. -/
structure Steps (cs : List Char) (s t : Stacks) : Prop where
  /-- No block straddles its end. -/
  whole : ∀ rest, spans (cs ++ rest) = spans cs ++ spans rest
  /-- No block has another one in it. -/
  flat : ∀ content ∈ blockContents cs, ¬ "<!--[if".toList <:+: content
  browser : Moves (browserView cs) s.browser t.browser
  outlook : Moves (outlookView cs) s.outlook t.outlook

theorem Steps.nil (s : Stacks) : Steps [] s s where
  whole rest := by rw [spans_nil]; rfl
  flat content h := by simp [blockContents, spans_nil] at h
  browser := by rw [browserView, spans_nil]; exact .nil _
  outlook := by rw [outlookView, spans_nil]; exact .nil _

theorem Steps.append {a b : List Char} {s t u : Stacks} (ha : Steps a s t) (hb : Steps b t u) :
    Steps (a ++ b) s u where
  whole rest := by
    rw [List.append_assoc, ha.whole, ha.whole, hb.whole, List.append_assoc]
  flat content h := by
    rw [blockContents, ha.whole, List.filterMap_append, List.mem_append] at h
    exact h.elim (ha.flat content) (hb.flat content)
  browser := by
    rw [browserView, ha.whole, List.flatMap_append]
    exact ha.browser.append hb.browser
  outlook := by
    rw [outlookView, ha.whole, List.flatMap_append]
    exact ha.outlook.append hb.outlook

/-- Tags and text take the same step in both documents. -/
theorem Steps.of_moves {cs : List Char} {s t : Stacks} (hb : Moves cs s.browser t.browser)
    (ho : Moves cs s.outlook t.outlook) : Steps cs s t := by
  have hopening : Apart opening.toList cs := hb.quiet.of_start (by decide)
  have hspans : spans cs = cs.map .outside := by
    have happend := spans_of_apart hopening []
    rwa [List.append_nil, spans_nil, List.append_nil] at happend
  refine ⟨?_, ?_, ?_, ?_⟩
  · intro rest
    rw [spans_of_apart hopening, hspans]
  · intro content h
    simp [blockContents, hspans] at h
  · have hview : browserView cs = cs := by simp [browserView, hspans, List.flatMap_map]
    rwa [hview]
  · have hview : outlookView cs = cs := by simp [outlookView, hspans, List.flatMap_map]
    rwa [hview]

/-- A block is a step in Outlook's document. -/
theorem Steps.block {content : String} {s t : List String} (h : Moves content.toList s t)
    (browser : List String) :
    Steps (Outlook.block content).toList ⟨browser, s⟩ ⟨browser, t⟩ := by
  have hclosing : Apart closing.toList content.toList := h.quiet.of_start (by decide)
  have hnested : ¬ "<!--[if".toList <:+: content.toList :=
    (h.quiet.of_start (by decide)).not_occurs
  have htext : ∀ rest, (Outlook.block content).toList ++ rest =
      opening.toList ++ (content.toList ++ (closing.toList ++ rest)) := by
    intro rest
    simp [Outlook.block]
  have hspans : spans (Outlook.block content).toList = [.block content.toList] := by
    rw [← List.append_nil (Outlook.block content).toList, htext, spans_block hclosing, spans_nil]
  refine ⟨?_, ?_, ?_, ?_⟩
  · intro rest
    rw [htext, spans_block hclosing, hspans]
    rfl
  · intro c hc
    simp only [blockContents, hspans, List.filterMap_cons, List.filterMap_nil,
      List.mem_singleton] at hc
    rwa [hc]
  · have hview : browserView (Outlook.block content).toList = [] := by simp [browserView, hspans]
    rw [hview]
    exact .nil browser
  · have hview : outlookView (Outlook.block content).toList = content.toList := by
      simp [outlookView, hspans]
    rwa [hview]

end EmailMarkup.Outlook
