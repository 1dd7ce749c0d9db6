import EmailMarkup.Markup.Reader
import EmailMarkup.Proofs.Fallible
import EmailMarkup.Proofs.Markup.Item

/-!
# Reading in one pass

A document is read in two passes: first the items of the text, then the tree of the items. But no
item depends on the tree, so the two may be taken step by step together, one front of the text after
the other. `Progress.scan` is that single pass from any state on, and `scan_marked` and `scan_text`
say what one step of it does. All laws about reading are proved for `scan`, with the state general.
-/

set_option autoImplicit false

namespace EmailMarkup.Markup

open EmailMarkup.Text EmailMarkup.Component

namespace Progress

/-- The open elements, innermost first. -/
def stack : Progress → List Open
  | .inside innermost outer => innermost :: outer
  | _ => []

/-- Takes in an item, if there is one. -/
def take (keep : Bool) (p : Progress) (i? : Option Placed) : Except Failure Progress :=
  match i? with
  | some i => p.add keep i
  | none => .ok p

section
variable (registry : Registry) (locate : List Char → Position) (keep : Bool)

/-- Reads a text to its end, from any state on. -/
def scan (p : Progress) (cs : List Char) : Except Failure Node :=
  (readItems registry locate cs).1.foldlM (add keep) p >>= fun next =>
    match (readItems registry locate cs).2 with
    | some failure => .error failure
    | none => next.finish

@[simp]
theorem scan_nil (p : Progress) : p.scan registry locate keep [] = p.finish := by
  rw [scan, readItems]
  rfl

/-- The items of a text are those of its front and those behind it. -/
theorem scan_of_readItems {p : Progress} {cs rest : List Char} {i? : Option Placed}
    (h : readItems registry locate cs = (i?.toList ++ (readItems registry locate rest).1,
      (readItems registry locate rest).2)) :
    p.scan registry locate keep cs =
      p.take keep i? >>= fun next => next.scan registry locate keep rest := by
  rw [scan, h]
  simp only [List.foldlM_append]
  cases i? with
  | none => rfl
  | some i =>
    show (p.add keep i >>= pure >>= _) >>= _ = p.add keep i >>= _
    cases p.add keep i with
    | error failure => rfl
    | ok next => rfl

/-- A step at a bracket. -/
theorem scan_marked (p : Progress) (cs : List Char) :
    p.scan registry locate keep ('<' :: cs) =
      (readMarked registry locate (locate ('<' :: cs)) cs).map Front.pair >>= fun read =>
        p.take keep (read.1.map fun item => { item, position := locate ('<' :: cs) }) >>=
          fun next => next.scan registry locate keep read.2 := by
  cases hread : readMarked registry locate (locate ('<' :: cs)) cs with
  | error failure =>
    rw [scan, readItems, dif_pos rfl]
    simp only [hread]
    rfl
  | ok front =>
    refine scan_of_readItems registry locate keep ?_
    rw [readItems, dif_pos rfl]
    simp only [hread]
    rfl

/-- A step at a text. -/
theorem scan_text (p : Progress) {c : Char} (hc : c ≠ '<') (cs : List Char) :
    p.scan registry locate keep (c :: cs) =
      p.take keep (readText locate c cs hc).value >>= fun next =>
        next.scan registry locate keep ((c :: cs).dropWhile (· ≠ '<')) := by
  refine scan_of_readItems registry locate keep ?_
  rw [readItems, dif_neg hc]
  rfl

end

/-- Takes in a text, unless it is blank. -/
def pass (p : Progress) (text : List Char) (position : Position) : Except Failure Progress :=
  if text.all isBlank then .ok p else p.addText (String.ofList text) position

/-- Everything up to a bracket, or up to the end, is passed as one text. -/
theorem scan_append (registry : Registry) (locate : List Char → Position) (keep : Bool)
    (p : Progress) {text tail : List Char} (htext : '<' ∉ text)
    (htail : ∀ c ∈ tail.head?, c = '<') :
    p.scan registry locate keep (text ++ tail) =
      p.pass text (locate (trimLeft (text ++ tail))) >>= fun next =>
        next.scan registry locate keep tail := by
  cases text with
  | nil => rfl
  | cons c text =>
    have hne : ∀ d ∈ c :: text, decide (d ≠ '<') = true := by
      intro d hd
      rw [decide_eq_true_eq]
      rintro rfl
      exact htext hd
    have hspan : (c :: (text ++ tail)).takeWhile (· ≠ '<') = c :: text ∧
        (c :: (text ++ tail)).dropWhile (· ≠ '<') = tail :=
      span_of_forall hne fun d hd => by simp [htail d hd]
    have hc : c ≠ '<' := by simpa using hne c List.mem_cons_self
    rw [List.cons_append, scan_text registry locate keep p hc, hspan.2, readText, hspan.1, pass]
    split
    · rfl
    · rfl

end Progress

/-- Reading a document is the single pass over its text, from the beginning. -/
theorem Node.read_eq_scan (registry : Registry) (keepComments : Bool) (markup : String) :
    Node.read registry keepComments markup =
      Progress.scan registry (Position.ofRest markup.toList)
        (keepComments && registry.has "mj-raw") .before markup.toList := rfl

end EmailMarkup.Markup
