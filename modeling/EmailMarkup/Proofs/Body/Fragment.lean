import EmailMarkup.Body.Fragment
import EmailMarkup.Proofs.Html.Canonical
import EmailMarkup.Proofs.Html.Entity
import EmailMarkup.Proofs.Outlook.View

/-!
# What fragments do to the open elements

Components are drawn as fragments, and a fragment opens or closes an element by itself. The lemmas
here give the move of every kind of fragment, and of the two shapes that components are built from:
an element around fragments (`neutral_element`), and scaffolding for Outlook that is opened in one
block before some fragments and closed in another after them (`neutral_scaffold`). Both leave the
open elements of both documents as they were, which is what `Neutral` says.

A name or a value cannot end a tag early: the names are constants of the components, which `Named`
asks for, and every value is escaped.
-/

set_option autoImplicit false

namespace EmailMarkup.Body

open EmailMarkup.Html EmailMarkup.Outlook

variable {name : String} {attributes : List (String × Option String)}

/-! ### Attributes -/

/-- The attributes of a fragment have ordinary names. -/
def Named (attributes : List (String × Option String)) : Prop :=
  ∀ a ∈ attributes, isTagName a.1 = true

instance (attributes : List (String × Option String)) : Decidable (Named attributes) :=
  inferInstanceAs (Decidable (∀ a ∈ attributes, isTagName a.1 = true))

/-- The attribute that a fragment writes. -/
def attributeOf (a : String × Option String) : Attribute where
  name := a.1
  value := a.2.map escapeAttribute

/-- The start tag that a fragment writes. -/
def tagOf (name : String) (attributes : List (String × Option String)) (selfClosing : Bool) :
    Tag where
  name := name
  attributes := attributes.map attributeOf
  selfClosing := selfClosing
  closed := !selfClosing

theorem tame_tagOf (hname : isTagName name = true) (hraw : isRawText name = false)
    (hnamed : Named attributes) (selfClosing : Bool) :
    (tagOf name attributes selfClosing).Tame := by
  refine ⟨hname, hraw, ?_⟩
  intro a ha
  obtain ⟨b, hb, rfl⟩ := List.mem_map.mp ha
  refine ⟨hnamed b hb, ?_⟩
  intro v hv
  obtain ⟨u, -, rfl⟩ := Option.map_eq_some_iff.mp hv
  exact ⟨notMem_escapeAttribute (by decide) u, notMem_escapeAttribute (by decide) u⟩

theorem toList_printAttributes (attributes : List (String × Option String)) :
    (printAttributes attributes).toList = (attributes.map attributeOf).flatMap Attribute.print := by
  induction attributes with
  | nil => rfl
  | cons a rest ih =>
    obtain ⟨name, value⟩ := a
    have hcons : (printAttributes ((name, value) :: rest)).toList =
        (printAttribute (name, value)).toList ++ (printAttributes rest).toList := by
      simp [printAttributes]
    rw [hcons, ih, List.map_cons, List.flatMap_cons]
    congr 1
    cases value with
    | none => simp [printAttribute, attributeOf, Attribute.print]
    | some v =>
      -- No quote is left in the value, so the writer puts double ones around it.
      simp [printAttribute, attributeOf, Attribute.print, quote_notMem_escapeAttribute v]

theorem toList_print_opening (name : String) (attributes : List (String × Option String)) :
    (Fragment.opening name attributes).print.toList = (tagOf name attributes false).printStart := by
  simp [Fragment.print, toList_printAttributes, Tag.printStart, tagOf]

theorem toList_print_single (name : String) (attributes : List (String × Option String)) :
    (Fragment.single name attributes).print.toList = (tagOf name attributes true).printStart := by
  simp [Fragment.print, toList_printAttributes, Tag.printStart, tagOf]

/-! ### Single fragments -/

/-- The name of a container is written as a tag, and the reader goes on in its content. -/
theorem of_isContainerName (h : isContainerName name = true) :
    isTagName name = true ∧ isRawText name = false := by
  simp only [isContainerName, Bool.and_eq_true, Bool.not_eq_true'] at h
  exact ⟨h.1.1, h.2⟩

theorem moves_opening (hname : isContainerName name = true) (hnamed : Named attributes)
    (s : List String) : Moves (Fragment.opening name attributes).print.toList s (name :: s) := by
  obtain ⟨htag, hraw⟩ := of_isContainerName hname
  rw [toList_print_opening]
  exact (tame_tagOf htag hraw hnamed false).moves s

theorem moves_closing (hname : isTagName name = true) (s : List String) :
    Moves (Fragment.closing name).print.toList (name :: s) s := by
  have htext : (Fragment.closing name).print.toList = '<' :: '/' :: (name.toList ++ ['>']) := by
    simp [Fragment.print]
  rw [htext]
  exact .endTag hname s

theorem moves_single (hname : isTagName name = true) (hraw : isRawText name = false)
    (hnamed : Named attributes) (s : List String) :
    Moves (Fragment.single name attributes).print.toList s s := by
  rw [toList_print_single]
  exact (tame_tagOf hname hraw hnamed true).moves s

/-! ### Fragments one after the other -/

theorem toList_printFragments_cons (f : Fragment) (rest : List Fragment) :
    (printFragments (f :: rest)).toList = f.print.toList ++ (printFragments rest).toList := by
  rw [printFragments, String.toList_append]

theorem toList_printFragments_append (a b : List Fragment) :
    (printFragments (a ++ b)).toList = (printFragments a).toList ++ (printFragments b).toList := by
  induction a with
  | nil => simp [printFragments]
  | cons f a ih =>
    rw [List.cons_append, toList_printFragments_cons, toList_printFragments_cons, ih,
      List.append_assoc]

theorem moves_nil (s : List String) : Moves (printFragments []).toList s s :=
  .nil s

theorem moves_cons {f : Fragment} {rest : List Fragment} {s t u : List String}
    (hf : Moves f.print.toList s t) (hrest : Moves (printFragments rest).toList t u) :
    Moves (printFragments (f :: rest)).toList s u := by
  rw [toList_printFragments_cons]
  exact hf.append hrest

/-- End tags close the innermost elements, if those have their names. -/
theorem moves_closings (names : List String) (h : names.all isTagName = true) (s : List String) :
    Moves (printFragments (names.map .closing)).toList (names ++ s) s := by
  induction names with
  | nil => exact moves_nil s
  | cons name rest ih =>
    rw [List.all_cons, Bool.and_eq_true] at h
    exact moves_cons (moves_closing h.1 (rest ++ s)) (ih h.2)

/-- Fragments that leave the open elements of both documents as they were. -/
def Neutral (fragments : List Fragment) : Prop :=
  ∀ s : Stacks, Steps (printFragments fragments).toList s s

theorem neutral_nil : Neutral [] :=
  fun s => .nil s

theorem Neutral.append {a b : List Fragment} (ha : Neutral a) (hb : Neutral b) :
    Neutral (a ++ b) := by
  intro s
  rw [toList_printFragments_append]
  exact (ha s).append (hb s)

/-- A fragment that both documents have, and that opens nothing. -/
theorem neutral_of_moves {f : Fragment} (h : ∀ s, Moves f.print.toList s s) : Neutral [f] := by
  intro s
  exact .of_moves (moves_cons (h s.browser) (moves_nil _)) (moves_cons (h s.outlook) (moves_nil _))

/-- An element around neutral fragments is neutral. -/
theorem neutral_element {content : List Fragment} (hname : isContainerName name = true)
    (hnamed : Named attributes) (hcontent : Neutral content) :
    Neutral (Fragment.element name attributes content) := by
  intro s
  have htag := (of_isContainerName hname).1
  have hopen : Steps (Fragment.opening name attributes).print.toList s
      ⟨name :: s.browser, name :: s.outlook⟩ :=
    .of_moves (moves_opening hname hnamed _) (moves_opening hname hnamed _)
  have hclose : Steps (printFragments [.closing name]).toList
      ⟨name :: s.browser, name :: s.outlook⟩ s :=
    .of_moves (moves_cons (moves_closing htag _) (moves_nil _))
      (moves_cons (moves_closing htag _) (moves_nil _))
  rw [Fragment.element, List.cons_append, toList_printFragments_cons, toList_printFragments_append]
  exact hopen.append ((hcontent _).append hclose)

/-- Scaffolding that one block opens and another one closes is neutral around neutral fragments: a
browser sees the fragments alone, and Outlook sees them in the scaffolding. -/
theorem neutral_scaffold {starts content ends : List Fragment} (opened : List String → List String)
    (hstarts : ∀ s, Moves (printFragments starts).toList s (opened s))
    (hcontent : Neutral content)
    (hends : ∀ s, Moves (printFragments ends).toList (opened s) s) :
    Neutral (.outlook starts :: content ++ [.outlook ends]) := by
  intro s
  have hopen : Steps (Fragment.outlook starts).print.toList s ⟨s.browser, opened s.outlook⟩ := by
    rw [Fragment.print]
    exact .block (hstarts s.outlook) s.browser
  have hclose : Steps (printFragments [.outlook ends]).toList ⟨s.browser, opened s.outlook⟩ s := by
    rw [toList_printFragments_cons, Fragment.print]
    exact (Steps.block (hends s.outlook) s.browser).append (.nil s)
  rw [List.cons_append, toList_printFragments_cons, toList_printFragments_append]
  exact hopen.append ((hcontent _).append hclose)

end EmailMarkup.Body
