import EmailMarkup.Number.Shortest
import EmailMarkup.Text.Ascii

/-!
# The form of written numbers

A number is written with letters, digits, a point and a hyphen (`isNumberChar_of_mem_text`). The
hyphen is a sign: it comes first or not at all, and the point never comes first (`text_form`). So a
text in which the point was replaced by a hyphen still says which number it was made from.

An integer is read back from its text, and from its text behind a plus sign
(`integer?_integerText`, `integer?_plus`).
-/

set_option autoImplicit false

namespace EmailMarkup.Number

open EmailMarkup.Text

/-- The characters that numbers are written with. -/
def isNumberChar (c : Char) : Bool :=
  c.isAlphanum || c == '-' || c == '.'

theorem isDigit_of_mem_digitsOf {n : Nat} {c : Char} (h : c ∈ digitsOf n) : c.isDigit = true :=
  Nat.isDigit_of_mem_toDigits (by decide) (by decide) h

theorem digitsOf_ne_nil (n : Nat) : digitsOf n ≠ [] :=
  Nat.toDigits_ne_nil

/-- The digits of a number, with zeros before or behind them. -/
theorem isDigit_of_mem_padded {n k : Nat} {c : Char}
    (h : c ∈ List.replicate k '0' ++ digitsOf n ∨ c ∈ digitsOf n ++ List.replicate k '0') :
    c.isDigit = true := by
  rw [List.mem_append, List.mem_append, List.mem_replicate] at h
  rcases h with (⟨-, rfl⟩ | h) | (h | ⟨-, rfl⟩)
  · rfl
  · exact isDigit_of_mem_digitsOf h
  · exact isDigit_of_mem_digitsOf h
  · rfl

/-- A decimal begins with a digit, and goes on with digits and points. -/
theorem positional_form (digits : Nat) (grid : Int) :
    ∃ first rest, positional digits grid = first :: rest ∧ first.isDigit = true ∧
      ∀ c ∈ rest, c.isDigit = true ∨ c = '.' := by
  unfold positional
  simp only
  split
  · obtain ⟨first, rest, hdigits⟩ := List.exists_cons_of_ne_nil (digitsOf_ne_nil digits)
    have hall : ∀ c ∈ first :: rest ++ List.replicate grid.toNat '0', c.isDigit = true := by
      intro c hc
      rw [← hdigits] at hc
      exact isDigit_of_mem_padded (.inr hc)
    rw [hdigits]
    exact ⟨first, _, List.cons_append, hall first List.mem_cons_self,
      fun c hc => .inl (hall c (List.mem_cons_of_mem _ hc))⟩
  · generalize hpadded : List.replicate ((-grid).toNat + 1 - (digitsOf digits).length) '0' ++
      digitsOf digits = padded
    have hall : ∀ c ∈ padded, c.isDigit = true := by
      intro c hc
      rw [← hpadded] at hc
      exact isDigit_of_mem_padded (.inl hc)
    -- The zeros in front make the digits more than there are places.
    have hlong : (-grid).toNat < padded.length := by
      rw [← hpadded, List.length_append, List.length_replicate]
      omega
    have hwhole : padded.take (padded.length - (-grid).toNat) ≠ [] := by
      rw [Ne, List.take_eq_nil_iff, not_or, ← List.length_eq_zero_iff]
      omega
    obtain ⟨first, rest, htake⟩ := List.exists_cons_of_ne_nil hwhole
    have hmem : ∀ c ∈ first :: rest, c.isDigit = true := by
      intro c hc
      rw [← htake] at hc
      exact hall c (List.mem_of_mem_take hc)
    rw [htake]
    refine ⟨first, _, List.cons_append, hmem first List.mem_cons_self, ?_⟩
    intro c hc
    rcases List.mem_append.mp hc with hc | hc
    · exact .inl (hmem c (List.mem_cons_of_mem _ hc))
    · rcases List.mem_cons.mp hc with rfl | hc
      · exact .inr rfl
      · exact .inl (hall c (List.mem_of_mem_drop hc))

/-- A number is written with its characters only, the first one is no point, and no hyphen follows
it. -/
theorem text_form (x : Float) :
    ∃ first rest, (text x).toList = first :: rest ∧ first ≠ '.' ∧ '-' ∉ rest ∧
      ∀ c ∈ first :: rest, isNumberChar c = true := by
  unfold text
  cases parts x with
  | notANumber =>
    exact ⟨'N', ['a', 'N'], rfl, by decide, by decide, List.all_eq_true.mp (by decide)⟩
  | infinite negative =>
    cases negative with
    | true =>
      exact ⟨'-', ['i', 'n', 'f'], rfl, by decide, by decide, List.all_eq_true.mp (by decide)⟩
    | false => exact ⟨'i', ['n', 'f'], rfl, by decide, by decide, List.all_eq_true.mp (by decide)⟩
  | finite negative mantissa exponent =>
    simp only
    obtain ⟨first, rest, hdigits, hfirst, hrest⟩ : ∃ first rest,
        (if mantissa = 0 then ['0']
          else positional (shortest mantissa exponent).1 (shortest mantissa exponent).2) =
          first :: rest ∧ first.isDigit = true ∧ ∀ c ∈ rest, c.isDigit = true ∨ c = '.' := by
      split
      · exact ⟨'0', [], rfl, rfl, nofun⟩
      · exact positional_form _ _
    rw [hdigits, String.toList_ofList]
    have hpoint : ∀ {c : Char}, c.isDigit = true → c ≠ '.' := by
      rintro c hc rfl
      exact absurd hc (by decide)
    have hhyphen : '-' ∉ first :: rest := by
      intro hmem
      rcases List.mem_cons.mp hmem with rfl | hmem
      · exact absurd hfirst (by decide)
      · exact (hrest '-' hmem).elim (by decide) (by decide)
    have hchars : ∀ c ∈ first :: rest, isNumberChar c = true := by
      intro c hc
      have hdigit : c.isDigit = true ∨ c = '.' := by
        rcases List.mem_cons.mp hc with rfl | hc
        · exact .inl hfirst
        · exact hrest c hc
      rcases hdigit with h | rfl
      · simp [isNumberChar, Char.isAlphanum, h]
      · rfl
    cases negative with
    | true =>
      exact ⟨'-', first :: rest, rfl, by decide, hhyphen,
        List.forall_mem_cons.mpr ⟨rfl, hchars⟩⟩
    | false =>
      exact ⟨first, rest, rfl, hpoint hfirst, fun hmem => hhyphen (List.mem_cons_of_mem _ hmem),
        hchars⟩

theorem isNumberChar_of_mem_text {x : Float} {c : Char} (h : c ∈ (text x).toList) :
    isNumberChar c = true := by
  obtain ⟨first, rest, htext, -, -, hchars⟩ := text_form x
  exact hchars c (htext ▸ h)

/-! ### Whole numbers -/

theorem isDigit_or_of_mem_integerText {n : Int} {c : Char} (h : c ∈ (integerText n).toList) :
    c.isDigit = true ∨ c = '-' := by
  cases n with
  | ofNat k =>
    rw [integerText, String.toList_ofList] at h
    exact .inl (isDigit_of_mem_digitsOf h)
  | negSucc k =>
    rw [integerText, String.toList_ofList] at h
    rcases List.mem_cons.mp h with rfl | h
    · exact .inr rfl
    · exact .inl (isDigit_of_mem_digitsOf h)

theorem numeral?_of_digits {cs : List Char} (h : ∀ c ∈ cs, c.isDigit = true) (n : Nat) :
    numeral? 10 digitValue? n cs = some (Nat.ofDigitChars 10 cs n) := by
  induction cs generalizing n with
  | nil => rfl
  | cons c cs ih =>
    rw [numeral?, digitValue?, if_pos (h c List.mem_cons_self), Nat.ofDigitChars_cons,
      Nat.mul_comm 10 n]
    exact ih (fun d hd => h d (List.mem_cons_of_mem c hd)) _

/-- A number is read back from its digits. -/
theorem numeral?_digitsOf (n : Nat) : numeral? 10 digitValue? 0 (digitsOf n) = some n := by
  rw [numeral?_of_digits fun c hc => isDigit_of_mem_digitsOf hc]
  exact congrArg some (Nat.ofDigitChars_toDigits (by decide) (by decide))

/-- A natural number is read back from its digits, with or without a plus sign before them. -/
theorem natural?_digitsOf {limit n : Nat} (h : n < limit) :
    natural? limit (digitsOf n) = some n ∧ natural? limit ('+' :: digitsOf n) = some n := by
  obtain ⟨first, rest, hdigits⟩ := List.exists_cons_of_ne_nil (digitsOf_ne_nil n)
  have hread : (numeral? 10 digitValue? 0 (first :: rest)).filter (· < limit) = some n := by
    rw [← hdigits, numeral?_digitsOf]
    simp [h]
  have hfirst : first ≠ '+' := by
    rintro rfl
    have hdigit := isDigit_of_mem_digitsOf (hdigits ▸ List.mem_cons_self : '+' ∈ digitsOf n)
    exact absurd hdigit (by decide)
  rw [hdigits]
  constructor
  · rw [natural?, naturalIn?]
    · exact hread
    · intro more heq
      exact hfirst (List.cons.inj heq).1
  · exact hread

/-- An integer is read back from its text. -/
theorem integer?_integerText {bound : Nat} {n : Int} (hlow : -bound ≤ n) (hhigh : n < bound) :
    integer? bound (integerText n).toList = some n := by
  cases n with
  | ofNat k =>
    have hk : k < bound := Int.ofNat_lt.mp hhigh
    rw [integerText, String.toList_ofList, integer?, (natural?_digitsOf hk).1]
    · rfl
    · intro more heq
      have hdigit : '-'.isDigit = true := by
        refine @isDigit_of_mem_digitsOf k _ ?_
        rw [heq]
        exact List.mem_cons_self
      exact absurd hdigit (by decide)
  | negSucc k =>
    have hk : k + 1 ≤ bound := by omega
    have hne : (digitsOf (k + 1)).isEmpty = false := by
      rw [List.isEmpty_eq_false_iff]
      exact digitsOf_ne_nil _
    have hfits : (some (k + 1)).filter (fun m => decide (m ≤ bound)) = some (k + 1) :=
      Option.filter_eq_some_iff.mpr ⟨rfl, decide_eq_true hk⟩
    rw [integerText, String.toList_ofList, integer?, hne, if_neg Bool.false_ne_true,
      numeral?_digitsOf, hfits]
    rfl

theorem integer?_plus {bound : Nat} {n : Int} (hlow : 0 ≤ n) (hhigh : n < bound) :
    integer? bound ('+' :: (integerText n).toList) = some n := by
  obtain ⟨k, rfl⟩ := Int.eq_ofNat_of_zero_le hlow
  have hk : k < bound := Int.ofNat_lt.mp hhigh
  have htext : (integerText k).toList = digitsOf k := String.toList_ofList
  rw [htext, integer?, (natural?_digitsOf hk).2]
  · rfl
  · intro more heq
    exact absurd (List.cons.inj heq).1 (by decide)

end EmailMarkup.Number
