import EmailMarkup.Markup.Node
import Mathlib.Data.List.Infix

/-!
# Positions in a text

A position is what counting lines and columns up to some place gives. Here it is read the other way:
`textAt?` passes as many lines and then as many characters as the position says. The text from the
position of a rest on is that rest (`textAt?_ofRest`), and the positions of shorter rests come later
(`ofRest_lt`). Both are proved for one character and then for all that lie between.
-/

set_option autoImplicit false

namespace EmailMarkup.Markup

variable {rest source front : List Char} {p : Position}

/-! ### The text at a position -/

/-- The text behind the first `n` line ends. -/
def fromLine? : Nat → List Char → Option (List Char)
  | 0, cs => some cs
  | _ + 1, [] => none
  | n + 1, c :: cs => if c = '\n' then fromLine? n cs else fromLine? (n + 1) cs

/-- The text behind the first `n` characters, if they are on one line. -/
def fromColumn? : Nat → List Char → Option (List Char)
  | 0, cs => some cs
  | _ + 1, [] => none
  | n + 1, c :: cs => if c = '\n' then none else fromColumn? n cs

/-- The text from a position on, if the text has such a position. -/
def textAt? (source : List Char) : Position → Option (List Char)
  | ⟨line + 1, column + 1⟩ => (fromLine? line source).bind (fromColumn? column)
  | _ => none

/-- What is behind some characters of a line is on it. -/
theorem exists_of_fromColumn? {n : Nat} {cs : List Char} (h : fromColumn? n cs = some rest) :
    ∃ front, cs = front ++ rest ∧ front.length = n ∧ '\n' ∉ front := by
  induction cs generalizing n with
  | nil =>
    cases n with
    | zero => exact ⟨[], by simpa [fromColumn?] using h, rfl, by simp⟩
    | succ n => cases h
  | cons c cs ih =>
    cases n with
    | zero => exact ⟨[], by simpa [fromColumn?] using h, rfl, by simp⟩
    | succ n =>
      rw [fromColumn?] at h
      split at h
      · cases h
      · rename_i hc
        obtain ⟨front, rfl, hlength, hfront⟩ := ih h
        exact ⟨c :: front, rfl, by rw [List.length_cons, hlength], by simp [Ne.symm hc, hfront]⟩

theorem fromColumn?_append (h : '\n' ∉ front) (rest : List Char) :
    fromColumn? front.length (front ++ rest) = some rest := by
  induction front with
  | nil => rw [List.nil_append, List.length_nil, fromColumn?]
  | cons c front ih =>
    rw [List.mem_cons, not_or] at h
    rw [List.cons_append, List.length_cons, fromColumn?, if_neg (Ne.symm h.1), ih h.2]

/-- The next line begins behind the end of the line. -/
theorem fromLine?_succ {n : Nat} {cs : List Char}
    (h : fromLine? n cs = some (front ++ '\n' :: rest)) (hfront : '\n' ∉ front) :
    fromLine? (n + 1) cs = some rest := by
  induction cs generalizing n with
  | nil =>
    cases n with
    | zero =>
      rw [fromLine?, Option.some.injEq] at h
      exact absurd h.symm (by simp)
    | succ n => cases h
  | cons c cs ih =>
    cases n with
    | zero =>
      -- The line is the first one, so what is before its end is the front itself.
      rw [fromLine?, Option.some.injEq] at h
      rw [h]
      clear h ih
      induction front with
      | nil => rw [List.nil_append, fromLine?, if_pos rfl, fromLine?]
      | cons d front ih =>
        rw [List.mem_cons, not_or] at hfront
        rw [List.cons_append, fromLine?, if_neg (Ne.symm hfront.1), ih hfront.2]
    | succ n =>
      rw [fromLine?] at h ⊢
      split at h
      · rename_i hc
        rw [if_pos hc]
        exact ih h
      · rename_i hc
        rw [if_neg hc]
        exact ih h

theorem textAt?_start (source : List Char) : textAt? source .start = some source := by
  show (fromLine? 0 source).bind (fromColumn? 0) = some source
  rw [fromLine?, Option.bind_some, fromColumn?]

/-- The position after a character is that of what follows it. -/
theorem textAt?_next {c : Char} (h : textAt? source p = some (c :: rest)) :
    textAt? source (p.next c) = some rest := by
  obtain ⟨_ | line, _ | column⟩ := p
  · cases h
  · cases h
  · cases h
  · rw [textAt?, Option.bind_eq_some_iff] at h
    obtain ⟨text, hline, hcolumn⟩ := h
    obtain ⟨front, rfl, hlength, hfront⟩ := exists_of_fromColumn? hcolumn
    by_cases hc : c = '\n'
    · subst hc
      rw [Position.next, if_pos rfl]
      show (fromLine? (line + 1) source).bind (fromColumn? 0) = some rest
      rw [fromLine?_succ hline hfront, Option.bind_some, fromColumn?]
    · rw [Position.next, if_neg hc]
      show (fromLine? line source).bind (fromColumn? (column + 1)) = some rest
      rw [hline, Option.bind_some]
      have hline : '\n' ∉ front ++ [c] := by simp [hfront, Ne.symm hc]
      simpa [hlength] using fromColumn?_append hline rest

theorem textAt?_after (front : List Char) (h : textAt? source p = some (front ++ rest)) :
    textAt? source (p.after front) = some rest := by
  induction front generalizing p with
  | nil => exact h
  | cons c front ih => exact ih (textAt?_next h)

/-! ### The order of positions -/

/-- A position comes before another if it is on an earlier line, or before it on the same one. -/
instance : LT Position where
  lt p q := p.line < q.line ∨ p.line = q.line ∧ p.column < q.column

instance (p q : Position) : Decidable (p < q) :=
  inferInstanceAs (Decidable (p.line < q.line ∨ p.line = q.line ∧ p.column < q.column))

namespace Position

theorem lt_trans {q r : Position} (hpq : p < q) (hqr : q < r) : p < r := by
  change _ ∨ _ at hpq hqr
  show _ ∨ _
  omega

theorem lt_next (p : Position) (c : Char) : p < p.next c := by
  unfold next
  split
  · exact .inl (Nat.lt_succ_self _)
  · exact .inr ⟨rfl, Nat.lt_succ_self _⟩

theorem lt_after (p : Position) (h : front ≠ []) : p < p.after front := by
  induction front generalizing p with
  | nil => exact absurd rfl h
  | cons c front ih =>
    cases front with
    | nil => exact p.lt_next c
    | cons d front => exact lt_trans (p.lt_next c) (ih (p.next c) (List.cons_ne_nil d front))

theorem ofRest_append (front rest : List Char) :
    ofRest (front ++ rest) rest = start.after front := by
  rw [ofRest, List.length_append, Nat.add_sub_cancel, List.take_left]

/-- What is left later in a text is at a later position. -/
theorem ofRest_lt {more : List Char} (hrest : rest <:+ source) (hmore : more <:+ rest)
    (hlt : more.length < rest.length) : ofRest source rest < ofRest source more := by
  obtain ⟨front, rfl⟩ := hrest
  obtain ⟨middle, rfl⟩ := hmore
  have hne : middle ≠ [] := by
    rintro rfl
    simp at hlt
  rw [ofRest_append, ← List.append_assoc, ofRest_append, after, after, List.foldl_append]
  exact lt_after _ hne

end Position

/-- The text from the position of a rest on is that rest. -/
theorem textAt?_ofRest (h : rest <:+ source) :
    textAt? source (.ofRest source rest) = some rest := by
  obtain ⟨front, rfl⟩ := h
  rw [Position.ofRest_append]
  exact textAt?_after front (textAt?_start _)

end EmailMarkup.Markup
