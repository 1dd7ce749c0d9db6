import EmailMarkup.Proofs.ByteOffset
import EmailMarkup.Proofs.Html.Canonical
import EmailMarkup.Proofs.Html.Starts
import EmailMarkup.Proofs.Selector.Siblings
import Mathlib.Data.List.Perm.Subperm

/-!
# Positions in steps of a number

`:nth-child(an+b)` names the elements whose position is `a * n + b` for some natural `n`. The
condition is computed with a remainder and a quotient, both of which round toward zero, and
`isNth_iff` says that this is right for all signs of `a` and of the difference.

The computation is done in signed words of 64 bits. `isNthIn? asWord?` does it there, and gives
nothing if a value on the way does not fit a word. That never happens. The numbers of a selector are
words of 32 bits, and a position is at most half the number of bytes of the text: every element has
a start tag of at least two characters (`two_mul_length_elementIds_le`).
-/

set_option autoImplicit false

namespace EmailMarkup.Html

open EmailMarkup.Text

/-! ### How many elements a text can have -/

/-- A piece that begins an element takes at least two characters: a bracket and a name. -/
theorem two_le_of_start? {c : Char} {cs : List Char}
    (h : (readPiece c cs).1.start?.isSome = true) :
    (readPiece c cs).2.length + 2 ≤ (c :: cs).length := by
  have hname : ∀ {name : String}, isElementName name = true → 0 < name.toList.length := by
    intro name hname
    obtain ⟨d, ds, hchars, -, -⟩ := exists_of_isElementName hname
    rw [hchars]
    exact Nat.succ_pos _
  have hbegins := begins_readPiece c cs
  generalize readPiece c cs = read at h hbegins
  obtain ⟨piece, rest⟩ := read
  generalize c :: cs = text at hbegins
  cases hbegins with
  | @startTag name attributes selfClosing tail rest hn hread hraw hstop =>
    have htail := length_readAttributes_le tail
    rw [hread] at htail
    have := hname hn
    simp only [List.length_cons, List.length_append] at htail ⊢
    omega
  | @rawText name attributes content tail close hn hraw hread hcontent hmark hstop =>
    have htail := length_readAttributes_le tail
    have hclose := length_upToBracket_le ('<' :: close)
    rw [hread] at htail
    have := hname hn
    simp only [List.length_cons, List.length_append, upToBracket] at htail hclose ⊢
    omega
  | @openRawText name attributes content tail hn hraw hread hcontent hstop =>
    have := hname hn
    simp only [List.length_cons, List.length_append, List.length_nil]
    omega
  | text | comment | openComment | declaration | openDeclaration | endTag | openEndTag => cases h

theorem two_mul_length_start?_le (cs : List Char) :
    2 * ((readPieces cs).filterMap Piece.start?).length ≤ cs.length := by
  fun_induction readPieces cs with
  | case1 => simp
  | case2 c rest hlt ih =>
    rw [List.filterMap_cons]
    split
    · omega
    · rename_i hstart
      have := two_le_of_start? (Option.isSome_of_eq_some hstart)
      rw [List.length_cons]
      omega

/-- A text has at least twice as many characters as elements. -/
theorem two_mul_length_elementIds_le (html : String) :
    2 * (Document.read html).elementIds.length ≤ html.toList.length := by
  have hlength : (Document.read html).elementIds.length =
      (starts (Document.read html).children).length := by
    rw [← (Document.forall₂_isPlaceOf _).length_eq, starts, List.length_map]
    exact length_placesAmong [] [] _
  rw [hlength, Document.read, starts_ofPieces]
  exact two_mul_length_start?_le html.toList

/-- The elements beside an element are elements of the document, each of them once. -/
theorem Document.length_elementSiblings_le {d : Document} {id : Nat} (h : d.isElement id = true) :
    (d.elementSiblings id).length ≤ d.elementIds.length := by
  refine (List.subperm_of_subset ?_ ?_).length_le
  · unfold elementSiblings
    split
    · exact ((pairwise_childrenOf d _).imp Nat.ne_of_lt).filter d.isElement
    · exact List.nodup_singleton id
  · intro other hother
    rw [mem_elementIds_iff]
    unfold elementSiblings at hother
    split at hother
    · exact (List.mem_filter.mp hother).2
    · rwa [List.mem_singleton.mp hother]

theorem length_le_utf8ByteSize (s : String) : s.toList.length ≤ s.utf8ByteSize := by
  have hbytes : s.utf8ByteSize = String.utf8Len s.toList := by
    rw [← String.utf8ByteSize_ofList, String.ofList_toList]
  rw [hbytes]
  induction s.toList with
  | nil => simp
  | cons c cs ih =>
    have hpos := c.utf8Size_pos
    rw [List.length_cons, String.utf8Len_cons]
    omega

end EmailMarkup.Html

namespace EmailMarkup.Selector

open EmailMarkup.Text EmailMarkup.Html

/-! ### Steps of a number -/

/-- The computation with remainder and quotient is right whatever the signs. -/
theorem isNth_iff (a b n : Int) : isNth a b n = true ↔ ∃ k : Nat, n = a * k + b := by
  unfold isNth
  split
  · rename_i hzero
    simp only [decide_eq_true_iff, hzero, Int.zero_mul, Int.zero_add, exists_const]
  · rename_i hne
    rw [Bool.and_eq_true, decide_eq_true_iff, decide_eq_true_iff]
    constructor
    · rintro ⟨hmod, hdiv⟩
      obtain ⟨q, hq⟩ := Int.dvd_of_tmod_eq_zero hmod
      rw [hq, Int.mul_tdiv_cancel_left q hne] at hdiv
      refine ⟨q.toNat, ?_⟩
      rw [Int.toNat_of_nonneg hdiv]
      omega
    · rintro ⟨k, hk⟩
      have hdiff : n - b = a * k := by omega
      rw [hdiff, Int.mul_tmod_right, Int.mul_tdiv_cancel_left _ hne]
      exact ⟨rfl, Int.natCast_nonneg k⟩

/-! ### Words -/

/-- Whether a number fits a signed word of 64 bits. -/
def fitsWord (x : Int) : Bool :=
  -(Nat.pow 2 63 : Nat) ≤ x && x < (Nat.pow 2 63 : Nat)

/-- A number, if it fits a signed word of 64 bits. -/
def asWord? (x : Int) : Option Int :=
  if fitsWord x then some x else none

/-- Whether a position, counted from 0, is the one before `a * k + b` for a natural number `k`.
Every value of the computation is passed through `word?`, which may refuse it. -/
def isNthIn? (word? : Int → Option Int) (a b : Int) (position : Nat) : Option Bool :=
  (word? a).bind fun a =>
  (word? b).bind fun b =>
  (word? position).bind fun before =>
  (word? (before + 1)).bind fun n =>
  if a = 0 then some (n = b)
  else
    (word? (n - b)).bind fun difference =>
    (word? (difference.tmod a)).bind fun remainder =>
    (word? (difference.tdiv a)).bind fun quotient =>
    some (remainder = 0 && 0 ≤ quotient)

theorem asWord?_eq_some {x : Int} (hlow : -9223372036854775808 ≤ x)
    (hhigh : x < 9223372036854775808) : asWord? x = some x := by
  have hpow : ((Nat.pow 2 63 : Nat) : Int) = 9223372036854775808 := rfl
  rw [asWord?, fitsWord, hpow, decide_eq_true hlow, decide_eq_true hhigh]
  rfl

/-- The computation comes to the same if no value is refused. -/
theorem isNthIn?_eq_some {word? : Int → Option Int} {a b : Int} {position : Nat}
    (ha : word? a = some a) (hb : word? b = some b)
    (hposition : word? position = some (position : Int))
    (hn : word? (position + 1) = some ((position : Int) + 1))
    (hdifference : word? (position + 1 - b) = some ((position : Int) + 1 - b))
    (hremainder : word? ((position + 1 - b : Int).tmod a) = some ((position + 1 - b : Int).tmod a))
    (hquotient : word? ((position + 1 - b : Int).tdiv a) = some ((position + 1 - b : Int).tdiv a)) :
    isNthIn? word? a b position = some (isNth a b (position + 1)) := by
  rw [isNthIn?, isNth]
  simp only [ha, hb, hposition, hn, hdifference, hremainder, hquotient, Option.bind_some]
  split <;> rfl

/-- Remainder and quotient are no further from zero than the number that is divided. -/
theorem natAbs_tmod_le (x a : Int) : (x.tmod a).natAbs ≤ x.natAbs := by
  rw [Int.natAbs_tmod]
  exact Nat.mod_le _ _

/-- No value is beyond the range of words, as long as the position is in half of it. -/
theorem isNthIn?_asWord? (a b : Int32) {position : Nat} (h : position < Nat.pow 2 62) :
    isNthIn? asWord? a.toInt b.toInt position = some (isNth a.toInt b.toInt (position + 1)) := by
  have hposition : (position : Int) < 4611686018427387904 := by
    have hpow : Nat.pow 2 62 = 4611686018427387904 := rfl
    omega
  have ha : -2147483648 ≤ a.toInt := a.le_toInt
  have ha' : a.toInt < 2147483648 := a.toInt_lt
  have hb : -2147483648 ≤ b.toInt := b.le_toInt
  have hb' : b.toInt < 2147483648 := b.toInt_lt
  have hmod := natAbs_tmod_le (position + 1 - b.toInt) a.toInt
  have hdiv := Int.natAbs_tdiv_le_natAbs (position + 1 - b.toInt) a.toInt
  clear h
  exact isNthIn?_eq_some (asWord?_eq_some (by omega) (by omega))
    (asWord?_eq_some (by omega) (by omega)) (asWord?_eq_some (by omega) (by omega))
    (asWord?_eq_some (by omega) (by omega)) (asWord?_eq_some (by omega) (by omega))
    (asWord?_eq_some (by omega) (by omega)) (asWord?_eq_some (by omega) (by omega))

/-! ### Positions of elements -/

/-- A text is short enough to be kept in memory, where none has more than 2 ^ 63 - 1 bytes. -/
def FitsMemory (html : String) : Prop :=
  html.utf8ByteSize < Nat.pow 2 63

theorem positionOf_lt {html : String} (hsize : FitsMemory html) {p : Place} {id : Nat}
    {before after : List Nat} (h : (Document.read html).IsViewOf p id before after) :
    positionOf (Document.read html) id < Nat.pow 2 62 := by
  have hsiblings := Document.length_elementSiblings_le h.isElement
  have helements := two_mul_length_elementIds_le html
  have hbytes := length_le_utf8ByteSize html
  have hlength := h.isPlaceOf.length
  have hpow : Nat.pow 2 63 = 2 * Nat.pow 2 62 := rfl
  rw [positionOf_of_isViewOf h]
  rw [FitsMemory, hpow] at hsize
  omega

/-- In every document that is read from a text, and for any two numbers of a selector, an element
stands once among the elements beside it, and the condition holds of it exactly if its position,
counted from 1, is `a * n + b` for some natural number `n`. Computing the condition in words of 64
bits gives that answer for every text that memory can hold: no value on the way is beyond their
range. -/
theorem nthChild_holds_iff_in_words (html : String) {p : Place} {id : Nat}
    (h : (p, id) ∈ (Document.read html).places.zip (Document.read html).elementIds)
    (a b : Int32) :
    ∃ position : Nat,
      (∀ i, ((Document.read html).elementSiblings id)[i]? = some id ↔ i = position) ∧
      ((Structural.nthChild a.toInt b.toInt).holds p = true ↔
        ∃ n : Nat, ((position + 1 : Nat) : Int) = a.toInt * n + b.toInt) ∧
      (FitsMemory html → isNthIn? asWord? a.toInt b.toInt position =
        some ((Structural.nthChild a.toInt b.toInt).holds p)) := by
  obtain ⟨before, after, hview⟩ := Document.exists_isViewOf h
  have hposition := positionOf_of_isViewOf hview
  have hlength := congrArg List.length hview.tagsBefore
  rw [List.length_map, List.length_map, List.length_reverse] at hlength
  refine ⟨p.row.before.length, ?_, ?_, ?_⟩
  · intro i
    have helement := hview.isElement
    rw [hview.siblings, ← hlength]
    constructor
    · intro hi
      -- The list has the number neither before the position nor behind it.
      rcases Nat.lt_trichotomy i before.length with hlt | heq | hgt
      · rw [List.getElem?_append_left hlt] at hi
        exact absurd (List.mem_of_getElem? hi)
          (Document.notMem_of_elementSiblings helement hview.siblings).1
      · exact heq
      · rw [List.getElem?_append_right (Nat.le_of_lt hgt)] at hi
        obtain ⟨k, hk⟩ := Nat.exists_eq_add_of_lt hgt
        rw [show i - before.length = k + 1 by omega, List.getElem?_cons_succ] at hi
        exact absurd (List.mem_of_getElem? hi)
          (Document.notMem_of_elementSiblings helement hview.siblings).2
    · rintro rfl
      simp
  · rw [Structural.holds, isNth_iff]
    push_cast
    rfl
  · intro hsize
    rw [Structural.holds]
    exact isNthIn?_asWord? a b (hposition ▸ positionOf_lt hsize hview)

/-- Text and three elements, the last of which has two before it. -/
def threeElements : Document :=
  { children := [.element (plainTag "b") [], .text "and", .element (plainTag "i") [],
      .element (plainTag "u") []] }

/-- The last of three elements is at position `-2 * n + 7`, and the computation in words says so. -/
theorem lastOfThree_nth :
    let html := "<b></b>and<i></i><u></u>"
    let p : Place := ⟨⟨[⟨plainTag "i", true⟩, ⟨plainTag "b", true⟩], ⟨plainTag "u", true⟩, []⟩, []⟩
    (p, 4) ∈ (Document.read html).places.zip (Document.read html).elementIds ∧ FitsMemory html ∧
      (Structural.nthChild (-2) 7).holds p = true ∧
      ∃ position : Nat,
        (∀ i, ((Document.read html).elementSiblings 4)[i]? = some 4 ↔ i = position) ∧
        (∃ n : Nat, ((position + 1 : Nat) : Int) = -2 * n + 7) ∧
        isNthIn? asWord? (-2) 7 position = some true := by
  intro html p
  have hread : Document.read html = threeElements := by
    refine Eq.trans (congrArg Document.read (by decide +kernel))
      (read_print (d := threeElements) ?_)
    exact .plain (by decide) .nil (.text (by decide) (by decide) rfl
      (.plain (by decide) .nil (.plain (by decide) .nil .nil)))
  have hsize : FitsMemory html := by
    rw [FitsMemory]
    decide
  have hmem : (p, 4) ∈ (Document.read html).places.zip (Document.read html).elementIds := by
    have hids : threeElements.elementIds = [1, 3, 4] := by decide +kernel
    rw [hread, hids]
    simp [threeElements, Document.places, placesAmong, elementsAmong, p]
  have hholds : (Structural.nthChild (-2) 7).holds p = true := by decide
  obtain ⟨position, honce, hiff, hwords⟩ := nthChild_holds_iff_in_words html hmem (-2) 7
  exact ⟨hmem, hsize, hholds, position, honce, hiff.mp hholds,
    (hwords hsize).trans (congrArg some hholds)⟩

end EmailMarkup.Selector
