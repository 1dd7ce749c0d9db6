import EmailMarkup.Text.Blank
import EmailMarkup.Text.Search
import Mathlib.Data.List.Infix
import Mathlib.Data.String.Basic

/-!
# Cutting texts at byte offsets

A place in a text can be given by the number of bytes before it, when the text is written in UTF-8.
Not every number is such a place: it has to be within the text and must not fall inside a character.
`cutAt?` cuts a text at an offset, and exactly at the valid ones (`isSome_cutAt?_iff`).

The offsets that come up in reading are those of ends of the text, `offsetOf`. At these a text can
always be cut, and what is added to them moves them along the text (`offsetOf_append`).
-/

set_option autoImplicit false

namespace EmailMarkup.Text

open String (utf8Len)

/-! ### Cuts -/

/-- The two parts of a text before and behind a byte offset. -/
def cutAt? : List Char → Nat → Option (List Char × List Char)
  | cs, 0 => some ([], cs)
  | [], _ + 1 => none
  | c :: cs, n + 1 =>
    if c.utf8Size ≤ n + 1 then
      (cutAt? cs (n + 1 - c.utf8Size)).map fun parts => (c :: parts.1, parts.2)
    else none

/-- The text from a byte offset on. -/
def from? (cs : List Char) (offset : Nat) : Option (List Char) :=
  (cutAt? cs offset).map Prod.snd

/-- The text up to a byte offset. -/
def upTo? (cs : List Char) (offset : Nat) : Option (List Char) :=
  (cutAt? cs offset).map Prod.fst

/-- The text between two byte offsets. -/
def between? (cs : List Char) (first last : Nat) : Option (List Char) :=
  (upTo? cs last).bind fun front => from? front first

theorem cutAt?_eq_some_iff {cs before behind : List Char} {offset : Nat} :
    cutAt? cs offset = some (before, behind) ↔ cs = before ++ behind ∧ utf8Len before = offset := by
  have hzero (cs before : List Char) :
      cutAt? cs 0 = some (before, behind) ↔ cs = before ++ behind ∧ utf8Len before = 0 := by
    rw [cutAt?, Option.some.injEq, Prod.mk.injEq, String.utf8Len_eq_zero]
    constructor
    · rintro ⟨rfl, rfl⟩
      exact ⟨rfl, rfl⟩
    · rintro ⟨h, rfl⟩
      exact ⟨rfl, h⟩
  induction cs generalizing before offset with
  | nil =>
    cases offset with
    | zero => exact hzero [] before
    | succ n =>
      rw [cutAt?]
      constructor
      · intro h
        cases h
      · rintro ⟨h, hlength⟩
        rw [(List.append_eq_nil_iff.mp h.symm).1] at hlength
        cases hlength
  | cons c cs ih =>
    cases offset with
    | zero => exact hzero (c :: cs) before
    | succ n =>
      rw [cutAt?]
      have hpos := c.utf8Size_pos
      constructor
      · intro h
        split at h
        · rename_i hle
          obtain ⟨⟨inner, tail⟩, hinner, heq⟩ := Option.map_eq_some_iff.mp h
          cases heq
          obtain ⟨rfl, hlength⟩ := ih.mp hinner
          refine ⟨rfl, ?_⟩
          rw [String.utf8Len_cons, hlength]
          omega
        · cases h
      · rintro ⟨hcs, hlength⟩
        cases before with
        | nil => cases hlength
        | cons d before =>
          rw [List.cons_append, List.cons.injEq] at hcs
          obtain ⟨rfl, rfl⟩ := hcs
          rw [String.utf8Len_cons] at hlength
          have hinner : cutAt? (before ++ behind) (n + 1 - c.utf8Size) = some (before, behind) :=
            ih.mpr ⟨rfl, by omega⟩
          rw [if_pos (by omega), hinner]
          rfl

/-- A text can be cut at the offsets that are valid positions in it. -/
theorem isSome_cutAt?_iff (s : String) (offset : Nat) :
    (cutAt? s.toList offset).isSome = true ↔ String.Pos.Raw.IsValid s ⟨offset⟩ := by
  rw [String.Pos.Raw.isValid_iff_exists_append, Option.isSome_iff_exists]
  constructor
  · rintro ⟨⟨before, behind⟩, h⟩
    obtain ⟨hs, hlength⟩ := cutAt?_eq_some_iff.mp h
    refine ⟨String.ofList before, String.ofList behind, ?_, ?_⟩
    · rw [← String.ofList_append, ← hs, String.ofList_toList]
    · rw [← hlength]
      simp [String.rawEndPos, String.utf8ByteSize_ofList]
  · rintro ⟨s₁, s₂, rfl, hoffset⟩
    refine ⟨(s₁.toList, s₂.toList), cutAt?_eq_some_iff.mpr ⟨String.toList_append, ?_⟩⟩
    rw [← String.utf8ByteSize_ofList, String.ofList_toList]
    exact (congrArg String.Pos.Raw.byteIdx hoffset).symm

/-- Without the last byte a text is left as such only if its last character is one byte. -/
theorem upTo?_pred {cs : List Char} (c : Char) :
    upTo? (cs ++ [c]) (utf8Len (cs ++ [c]) - 1) = if c.utf8Size = 1 then some cs else none := by
  have hpos := c.utf8Size_pos
  have hlast : utf8Len (cs ++ [c]) = utf8Len cs + c.utf8Size := by
    rw [String.utf8Len_append, String.utf8Len_cons, String.utf8Len_nil, Nat.zero_add]
  split
  · rename_i hone
    rw [upTo?, cutAt?_eq_some_iff.mpr ⟨rfl, by rw [hlast, hone, Nat.add_sub_cancel]⟩]
    rfl
  · rename_i hwide
    rw [upTo?, Option.map_eq_none_iff, Option.eq_none_iff_forall_ne_some]
    rintro ⟨before, behind⟩ h
    obtain ⟨hcs, hlength⟩ := cutAt?_eq_some_iff.mp h
    -- The last character is in one of the two parts; either way the offset is not before its end.
    rcases List.eq_nil_or_concat behind with rfl | ⟨behind, d, rfl⟩
    · rw [List.append_nil] at hcs
      rw [← hcs, hlast] at hlength
      omega
    · rw [List.concat_eq_append, ← List.append_assoc] at hcs
      obtain ⟨rfl, hd⟩ := List.append_inj' hcs rfl
      rw [hlast, String.utf8Len_append] at hlength
      omega

/-! ### Ends of a text -/

/-- The byte offset at which an end of a text begins. -/
def offsetOf (input rest : List Char) : Nat :=
  utf8Len input - utf8Len rest

section
variable {input : List Char}

theorem offsetOf_self (input : List Char) : offsetOf input input = 0 :=
  Nat.sub_self _

theorem offsetOf_nil (input : List Char) : offsetOf input [] = utf8Len input := rfl

theorem cutAt?_offsetOf (front rest : List Char) :
    cutAt? (front ++ rest) (offsetOf (front ++ rest) rest) = some (front, rest) := by
  refine cutAt?_eq_some_iff.mpr ⟨rfl, ?_⟩
  rw [offsetOf, String.utf8Len_append, Nat.add_sub_cancel]

theorem from?_offsetOf {rest : List Char} (h : rest <:+ input) :
    from? input (offsetOf input rest) = some rest := by
  obtain ⟨front, rfl⟩ := h
  rw [from?, cutAt?_offsetOf]
  rfl

theorem upTo?_offsetOf (front rest : List Char) :
    upTo? (front ++ rest) (offsetOf (front ++ rest) rest) = some front := by
  rw [upTo?, cutAt?_offsetOf]
  rfl

/-- The bytes of a piece lead from where it begins to where it ends. -/
theorem offsetOf_append {piece rest : List Char} (h : piece ++ rest <:+ input) :
    offsetOf input (piece ++ rest) + utf8Len piece = offsetOf input rest := by
  have hle := String.utf8Len_le_of_suffix h
  rw [String.utf8Len_append] at hle
  rw [offsetOf, offsetOf, String.utf8Len_append]
  omega

theorem offsetOf_cons {c : Char} {rest : List Char} (h : c :: rest <:+ input) :
    offsetOf input (c :: rest) + c.utf8Size = offsetOf input rest := by
  have hpiece : [c] ++ rest <:+ input := h
  have hmove := offsetOf_append hpiece
  rwa [String.utf8Len_cons, String.utf8Len_nil, Nat.zero_add] at hmove

theorem upTo?_append (piece rest : List Char) :
    upTo? (piece ++ rest) (utf8Len piece) = some piece := by
  rw [upTo?, cutAt?_eq_some_iff.mpr ⟨rfl, rfl⟩]
  rfl

theorem from?_append (piece rest : List Char) :
    from? (piece ++ rest) (utf8Len piece) = some rest := by
  rw [from?, cutAt?_eq_some_iff.mpr ⟨rfl, rfl⟩]
  rfl

/-- The piece of a text between where two of its ends begin. -/
theorem between?_offsetOf {piece rest : List Char} (h : piece ++ rest <:+ input) :
    between? input (offsetOf input (piece ++ rest)) (offsetOf input rest) = some piece := by
  obtain ⟨front, rfl⟩ := h
  have hfirst : offsetOf (front ++ (piece ++ rest)) (piece ++ rest) = utf8Len front := by
    rw [offsetOf, String.utf8Len_append front, Nat.add_sub_cancel]
  rw [between?, hfirst, ← List.append_assoc, upTo?_offsetOf]
  exact from?_append front piece

end

end EmailMarkup.Text
