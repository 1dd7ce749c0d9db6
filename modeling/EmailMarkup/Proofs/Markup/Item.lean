import EmailMarkup.Markup.Item
import EmailMarkup.Proofs.Text

/-!
# What the readers of items do

The readers of tags return what they read together with a proof that they got ahead. Here each of
them is given an equation without that proof, so that laws about them are about values and rests
only. The proof is there for the recursion alone; two readings with equal values and rests would
still differ in type, and no rewriting could pass from one to the other.
-/

set_option autoImplicit false

namespace EmailMarkup.Markup

open EmailMarkup.Text EmailMarkup.Component

/-- What was read and what is left. -/
def Front.pair {α : Type} {cs : List Char} (f : Front α cs) : α × List Char :=
  (f.value, f.rest)

theorem map_pair_map_widen {α : Type} {cs ds : List Char} (x : Except Failure (Front α cs))
    (h : cs.length ≤ ds.length) : (x.map fun f => f.widen h).map Front.pair = x.map Front.pair := by
  cases x with
  | error failure | ok f => rfl

theorem map_pair_map_asItem {cs ds : List Char} (x : Except Failure (Front Item cs))
    (h : cs.length ≤ ds.length) :
    (x.map fun f => f.asItem.widen h).map Front.pair =
      (x.map Front.pair).map fun read => (some read.1, read.2) := by
  cases x with
  | error failure | ok f => rfl

section
variable (registry : Registry) (locate : List Char → Position) (start : Position)

/-- The attributes of a tag are read one by one up to its end. -/
theorem pair_readAttributes (tag : String) (attributes : Attributes) (cs : List Char) :
    (readAttributes locate start tag attributes cs).map Front.pair =
      match trimLeft cs with
      | [] => .error (.malformed start (.unterminatedTag tag))
      | '/' :: '>' :: rest => .ok ((attributes, true), rest)
      | '>' :: rest => .ok ((attributes, false), rest)
      | c :: more =>
        if (nameOf (c :: more)).isEmpty then
          .error (.malformed (locate (c :: more)) (.unexpectedCharacter tag))
        else
          let name := String.ofList (nameOf (c :: more))
          match readAssigned name (trimLeft (afterName (c :: more))) with
          | .error quote => .error (.malformed (locate quote) (.unterminatedValue name tag))
          | .ok (value, next) =>
            (readAttributes locate start tag (attributes.insert name value) next).map
              Front.pair := by
  rw [readAttributes]
  split
  · rename_i h
    conv_rhs => rw [h]
    rfl
  · rename_i h
    conv_rhs => rw [h]
    rfl
  · rename_i h
    conv_rhs => rw [h]
    rfl
  · rename_i c more hslash hend h
    conv_rhs => rw [h]
    generalize hl : Except.map Front.pair _ = left
    split
    · rename_i heq
      cases heq
    · rename_i heq
      cases heq
      exact absurd rfl (hslash _ rfl)
    · rename_i heq
      cases heq
      exact absurd rfl hend
    · rename_i heq
      cases heq
      rw [← hl]
      by_cases hname : (nameOf (c :: more)).isEmpty = true
      · rw [dif_pos hname, if_pos hname]
        rfl
      · rw [dif_neg hname, if_neg hname]
        simp only
        split
        · rename_i hvalue
          rw [hvalue]
          rfl
        · rename_i hvalue
          rw [map_pair_map_widen, hvalue]

/-- What a tag is an item of, once its attributes are read. -/
def readElement (name : List Char) (attributes : Attributes) (single : Bool) (rest : List Char) :
    Except Failure (Item × List Char) :=
  let tag := String.ofList name
  match registry.get? tag with
  | none => .error (.unknownTag tag start)
  | some spec =>
    if single then .ok (.whole tag attributes "", rest)
    else if spec.captures then
      match capture name 0 rest with
      | .ok captured =>
        .ok (.whole tag attributes (String.ofList (trimChars captured.1)), captured.2)
      | .error .neverClosed => .error (.malformed start (.neverClosed tag))
      | .error .brokenCharacter => .error .brokenCharacter
      | .error (.unterminated rest) =>
        .error (.malformed (locate rest) (.unterminatedClosingTag tag))
    else .ok (.opening tag attributes, rest)

theorem pair_readOpening (cs : List Char) :
    (readOpening registry locate start cs).map Front.pair =
      if (nameOf cs).isEmpty then .error (.malformed start .missingTagName)
      else (readAttributes locate start (String.ofList (nameOf cs)) ∅ (afterName cs)).map
          Front.pair >>= fun read =>
        readElement registry locate start (nameOf cs) read.1.1 read.1.2 read.2 := by
  unfold readOpening
  simp only
  split
  · rfl
  · cases readAttributes locate start (String.ofList (nameOf cs)) ∅ (afterName cs) with
    | error failure => rfl
    | ok front =>
      show Except.map Front.pair (match registry.get? (String.ofList (nameOf cs)) with
        | none => _
        | some spec => _) = readElement registry locate start (nameOf cs) front.value.1
          front.value.2 front.rest
      simp only [readElement]
      cases registry.get? (String.ofList (nameOf cs)) with
      | none => rfl
      | some spec =>
        simp only
        split
        · rfl
        · split
          · split
            · rename_i hcapture
              conv_rhs => rw [hcapture]
              rfl
            · rename_i hcapture
              conv_rhs => rw [hcapture]
              rfl
            · rename_i hcapture
              conv_rhs => rw [hcapture]
              rfl
            · rename_i hcapture
              conv_rhs => rw [hcapture]
              rfl
          · rfl

theorem pair_readClosing (cs : List Char) :
    (readClosing start cs).map Front.pair =
      match trimLeft (afterName cs) with
      | '>' :: rest => .ok (.closing (String.ofList (nameOf cs)), rest)
      | _ => .error (.malformed start (.unterminatedClosingTag (String.ofList (nameOf cs)))) := by
  unfold readClosing
  simp only
  split
  · rename_i h
    conv_rhs => rw [h]
    rfl
  · rename_i hend
    generalize hl : Except.map Front.pair _ = left
    split
    · rename_i rest h
      exact absurd h (hend rest)
    · exact hl.symm

theorem pair_readComment (cs : List Char) :
    (readComment start cs).map Front.pair =
      match splitAtMark? ['-', '-', '>'] cs with
      | some (body, rest) => .ok (.comment ("<!--" ++ String.ofList body ++ "-->"), rest)
      | none => .error (.malformed start .unterminatedComment) := by
  unfold readComment
  split
  · rename_i h
    conv_rhs => rw [h]
    rfl
  · rename_i h
    conv_rhs => rw [h]
    rfl

theorem pair_skipDeclaration (mark : Char × List Char) (cs : List Char) :
    (skipDeclaration start mark cs).map Front.pair =
      match splitAtMark? (mark.1 :: mark.2) cs with
      | some (_, rest) => .ok (none, rest)
      | none => .error (.malformed start .unterminatedDeclaration) := by
  unfold skipDeclaration
  split
  · rename_i h
    conv_rhs => rw [h]
    rfl
  · rename_i h
    conv_rhs => rw [h]
    rfl

/-- What begins with a bracket is told by what comes next. -/
theorem pair_readMarked (cs : List Char) :
    (readMarked registry locate start cs).map Front.pair =
      match cs with
      | '!' :: '-' :: '-' :: rest =>
        ((readComment start rest).map Front.pair).map fun read => (some read.1, read.2)
      | '?' :: rest => (skipDeclaration start ('?', ['>']) ('?' :: rest)).map Front.pair
      | '!' :: rest => (skipDeclaration start ('>', []) ('!' :: rest)).map Front.pair
      | '/' :: rest =>
        ((readClosing start rest).map Front.pair).map fun read => (some read.1, read.2)
      | cs =>
        ((readOpening registry locate start cs).map Front.pair).map
          fun read => (some read.1, read.2) := by
  split
  · rw [readMarked]
    exact map_pair_map_asItem _ _
  · rw [readMarked]
  · rename_i hcomment
    rw [readMarked]
    exact hcomment
  · rw [readMarked]
    exact map_pair_map_asItem _ _
  · rename_i hcomment hquestion hbang hslash
    rw [readMarked]
    · exact map_pair_map_asItem _ le_rfl
    · exact hcomment
    · exact hquestion
    · exact hbang
    · exact hslash

/-- What begins with a name is the tag of an element. -/
theorem pair_readMarked_name {c : Char} (hc : isNameChar c = true) (cs : List Char) :
    (readMarked registry locate start (c :: cs)).map Front.pair =
      ((readOpening registry locate start (c :: cs)).map Front.pair).map
        fun read => (some read.1, read.2) := by
  have hne : ∀ x, isNameChar x = false → c ≠ x := by
    rintro x hx rfl
    rw [hx] at hc
    cases hc
  rw [pair_readMarked]
  split
  · rename_i heq
    exact absurd (List.cons.inj heq).1 (hne '!' (by decide))
  · rename_i heq
    exact absurd (List.cons.inj heq).1 (hne '?' (by decide))
  · rename_i heq
    exact absurd (List.cons.inj heq).1 (hne '!' (by decide))
  · rename_i heq
    exact absurd (List.cons.inj heq).1 (hne '/' (by decide))
  · rfl

end

end EmailMarkup.Markup
