import EmailMarkup.Proofs.Number.Text
import EmailMarkup.Proofs.Text
import EmailMarkup.Selector.Reader

/-!
# Formulas of positions

The formula of an `nth-child` condition is written in its shortest form: a coefficient of one, a
coefficient of zero and an offset of zero are left out. Reading gives back every pair of integers
that fit a signed word of 32 bits (`readNth?_formula`).
-/

set_option autoImplicit false

namespace EmailMarkup.Selector

open EmailMarkup.Text EmailMarkup.Number

variable {c : Char} {a b : Int}

/-- The coefficient before the `n` of a formula. A one is not written. -/
def coefficient (a : Int) : List Char :=
  if a = 1 then [] else if a = -1 then ['-'] else (integerText a).toList

/-- The number behind the `n` of a formula, with its sign. A zero is not written. -/
def offset (b : Int) : List Char :=
  if b = 0 then [] else if 0 < b then '+' :: (integerText b).toList else (integerText b).toList

/-- The formula of an `nth-child` condition. -/
def formula (a b : Int) : List Char :=
  if a = 0 then (integerText b).toList else coefficient a ++ 'n' :: offset b

/-- An integer that fits a signed word of 32 bits. -/
def IsWord32 (n : Int) : Prop :=
  -(Nat.pow 2 31 : Nat) ≤ n ∧ n < (Nat.pow 2 31 : Nat)

instance (n : Int) : Decidable (IsWord32 n) :=
  inferInstanceAs (Decidable (_ ∧ _))

/-- The characters of formulas. -/
def isFormulaChar (c : Char) : Bool :=
  c.isDigit || c == '+' || c == '-' || c == 'n'

theorem isFormulaChar_of_mem_integerText {n : Int} (h : c ∈ (integerText n).toList) :
    isFormulaChar c = true ∧ c ≠ 'n' := by
  rcases isDigit_or_of_mem_integerText h with hdigit | rfl
  · refine ⟨by simp [isFormulaChar, hdigit], ?_⟩
    rintro rfl
    exact absurd hdigit (by decide)
  · decide

theorem isFormulaChar_of_mem_coefficient (h : c ∈ coefficient a) :
    isFormulaChar c = true ∧ c ≠ 'n' := by
  unfold coefficient at h
  split at h
  · cases h
  · split at h
    · obtain rfl := List.mem_singleton.mp h
      decide
    · exact isFormulaChar_of_mem_integerText h

theorem isFormulaChar_of_mem_offset (h : c ∈ offset b) : isFormulaChar c = true := by
  unfold offset at h
  split at h
  · cases h
  · split at h
    · rcases List.mem_cons.mp h with rfl | h
      · rfl
      · exact (isFormulaChar_of_mem_integerText h).1
    · exact (isFormulaChar_of_mem_integerText h).1

theorem isFormulaChar_of_mem_formula (h : c ∈ formula a b) : isFormulaChar c = true := by
  unfold formula at h
  split at h
  · exact (isFormulaChar_of_mem_integerText h).1
  · rcases List.mem_append.mp h with h | h
    · exact (isFormulaChar_of_mem_coefficient h).1
    · rcases List.mem_cons.mp h with rfl | h
      · rfl
      · exact isFormulaChar_of_mem_offset h

theorem of_isFormulaChar (h : isFormulaChar c = true) :
    isBlank c = false ∧ c.toLower = c ∧ c ≠ ')' := by
  simp only [isFormulaChar, Bool.or_eq_true, beq_iff_eq] at h
  rcases h with ((hdigit | rfl) | rfl) | rfl
  · refine ⟨?_, ?_, ?_⟩
    · exact isBlank_of_isNameChar (by simp [isNameChar, Char.isAlphanum, hdigit])
    · have hcode : c.toNat ≤ 57 := (Char.isDigit_iff_toNat.mp hdigit).2
      rcases toLower_cases c with hsame | ⟨hlow, -, -⟩
      · exact hsame
      · omega
    · rintro rfl
      exact absurd hdigit (by decide)
  · decide
  · decide
  · decide

theorem word32?_integerText {n : Int} (h : IsWord32 n) : word32? (integerText n).toList = some n :=
  integer?_integerText h.1 h.2

theorem readCoefficient?_coefficient (h : IsWord32 a) :
    readCoefficient? (coefficient a) = some a := by
  unfold coefficient
  split
  · rename_i ha
    rw [ha]
    rfl
  · split
    · rename_i ha
      rw [ha]
      rfl
    · -- The signs alone are no integers.
      have hread := word32?_integerText h
      have hne : ∀ cs, word32? cs = none → (integerText a).toList ≠ cs := by
        rintro cs hcs rfl
        rw [hread] at hcs
        cases hcs
      rw [readCoefficient?, if_neg, if_neg (hne _ rfl), hread]
      exact not_or.mpr ⟨hne _ rfl, hne _ rfl⟩

theorem word32?_offset (h : IsWord32 b) (hb : b ≠ 0) : word32? (offset b) = some b := by
  unfold offset
  rw [if_neg hb]
  split
  · rename_i hpos
    exact integer?_plus (Int.le_of_lt hpos) h.2
  · exact word32?_integerText h

/-- A formula is read back from its text. -/
theorem readNth?_formula (ha : IsWord32 a) (hb : IsWord32 b) :
    readNth? (formula a b) = some (a, b) := by
  have hclean : lowerChars ((formula a b).filter fun c => !isBlank c) = formula a b := by
    rw [List.filter_eq_self.mpr, lowerChars, List.map_congr_left, List.map_id]
    · intro c hc
      exact (of_isFormulaChar (isFormulaChar_of_mem_formula hc)).2.1
    · intro c hc
      rw [(of_isFormulaChar (isFormulaChar_of_mem_formula hc)).1]
      rfl
  have hword : ∀ word : List Char, (word.all isFormulaChar) = false → formula a b ≠ word := by
    rintro word hword rfl
    rw [List.all_eq_true.mpr fun c hc => isFormulaChar_of_mem_formula hc] at hword
    cases hword
  simp only [readNth?, hclean]
  rw [if_neg (hword _ (by decide)), if_neg (hword _ (by decide))]
  by_cases hzero : a = 0
  · subst hzero
    have hformula : formula 0 b = (integerText b).toList := if_pos rfl
    have hposition : (integerText b).toList.dropWhile (· != 'n') = [] := by
      rw [List.dropWhile_eq_nil_iff]
      intro c hc
      simpa using (isFormulaChar_of_mem_integerText hc).2
    simp only [hformula, hposition, word32?_integerText hb]
    rfl
  · have hformula : formula a b = coefficient a ++ 'n' :: offset b := if_neg hzero
    have hn : 'n' ∉ coefficient a := fun hmem => (isFormulaChar_of_mem_coefficient hmem).2 rfl
    simp only [hformula, dropWhile_bne_append hn, takeWhile_bne_append hn,
      readCoefficient?_coefficient ha]
    by_cases hb0 : b = 0
    · rw [hb0]
      rfl
    · have hread := word32?_offset hb hb0
      have hne : (offset b).isEmpty = false := by
        cases hoffset : offset b with
        | nil => rw [hoffset] at hread; cases hread
        | cons c cs => rfl
      rw [hne, hread]
      rfl

end EmailMarkup.Selector
