import EmailMarkup.Text.Ascii
import EmailMarkup.Text.Blank
import EmailMarkup.Text.Search
import Mathlib.Data.List.Infix
import Mathlib.Data.List.TakeWhile

/-!
# Laws of the text functions

The readers of this library ask whether a text begins with a mark and where the mark occurs first.
Here both answers are tied to the prefix and infix orders on lists, which is how the laws about
documents speak of them. Two facts carry most of the work:

* `splitAtMark?_append`: the first occurrence of a mark is found where it was put, as long as no
  earlier position of the text begins with the mark.
* `spanFolded_append_bracket`: the same for a mark that is looked for without regard to case. A
  mark that begins with `<` and has no other `<` cannot straddle the place where it was put.

Both rest on what a mark that begins with `<` cannot do: begin in a text it is `Apart` from, or run
over the next `<` (`prefix_of_prefix_append_bracket`).

A text that is split at marks falls into the pieces that it was put together of
(`splitWhere_append_cons`), and what is read up to a kind of character is the same with more text
behind it (`span_append`).

The rest is about folding the case of ASCII letters and about letters, digits and hyphens, which are
no blanks.
-/

set_option autoImplicit false

namespace EmailMarkup.Text

variable {mark u before : List Char} {c x d : Char}

/-! ### Marks -/

/-- What follows a mark is what is left when the mark is taken off the front. -/
theorem after?_eq_some_iff {cs rest : List Char} :
    after? mark cs = some rest ↔ cs = mark ++ rest := by
  induction mark generalizing cs with
  | nil => simp [after?]
  | cons m mark ih =>
    cases cs with
    | nil => simp [after?]
    | cons c cs =>
      by_cases hmc : m = c
      · simp [after?, hmc, ih]
      · simp [after?, hmc, Ne.symm hmc]

/-- A text begins with a mark exactly when the mark is a prefix of it. -/
theorem beginsWith_iff {cs : List Char} : beginsWith mark cs = true ↔ mark <+: cs := by
  unfold beginsWith
  rw [Option.isSome_iff_exists]
  constructor
  · rintro ⟨rest, h⟩
    exact ⟨rest, (after?_eq_some_iff.mp h).symm⟩
  · rintro ⟨rest, h⟩
    exact ⟨rest, after?_eq_some_iff.mpr h.symm⟩

/-- A text does not begin with a mark exactly when nothing follows the mark. -/
theorem after?_eq_none_iff {cs : List Char} : after? mark cs = none ↔ ¬ mark <+: cs := by
  rw [← beginsWith_iff, beginsWith, Option.not_isSome_iff_eq_none]

/-- Splitting at a mark finds it where it was put, if the text begins with the mark at no position
before. -/
theorem splitAtMark?_append (hmark : mark ≠ []) (before rest : List Char)
    (hfirst : ∀ pre post, before = pre ++ post → post ≠ [] → ¬ mark <+: post ++ (mark ++ rest)) :
    splitAtMark? mark (before ++ (mark ++ rest)) = some (before, rest) := by
  induction before with
  | nil =>
    -- The mark is not empty, so the text is not, and the search looks at its first position.
    obtain ⟨c, cs, hcs⟩ := List.exists_cons_of_ne_nil (List.append_ne_nil_of_left_ne_nil hmark rest)
    have hafter : after? mark (c :: cs) = some rest := after?_eq_some_iff.mpr hcs.symm
    rw [List.nil_append, hcs, splitAtMark?, hafter]
  | cons c before ih =>
    have hnone : after? mark (c :: (before ++ (mark ++ rest))) = none :=
      after?_eq_none_iff.mpr (hfirst [] (c :: before) rfl (List.cons_ne_nil _ _))
    have hrest := ih fun pre post hsplit hpost =>
      hfirst (c :: pre) post (by rw [hsplit, List.cons_append]) hpost
    rw [List.cons_append, splitAtMark?, hnone, hrest]
    rfl

/-- What is found is the mark, and it stands at no position before. -/
theorem splitAtMark?_eq_some {cs rest : List Char}
    (h : splitAtMark? mark cs = some (before, rest)) :
    cs = before ++ (mark ++ rest) ∧
      ∀ pre post, before = pre ++ post → post ≠ [] → ¬ mark <+: post ++ (mark ++ rest) := by
  induction cs generalizing before with
  | nil =>
    rw [splitAtMark?] at h
    split at h
    · rename_i hmark
      cases h
      rw [List.isEmpty_iff.mp hmark]
      exact ⟨rfl, fun pre post hsplit hpost =>
        absurd (List.append_eq_nil_iff.mp hsplit.symm).2 hpost⟩
    · cases h
  | cons c cs ih =>
    rw [splitAtMark?] at h
    split at h
    · rename_i hafter
      cases h
      rw [List.nil_append]
      exact ⟨after?_eq_some_iff.mp hafter, fun pre post hsplit hpost =>
        absurd (List.append_eq_nil_iff.mp hsplit.symm).2 hpost⟩
    · rename_i hafter
      obtain ⟨⟨inner, next⟩, hinner, heq⟩ := Option.map_eq_some_iff.mp h
      cases heq
      obtain ⟨hcs, hfirst⟩ := ih hinner
      refine ⟨by rw [hcs]; rfl, ?_⟩
      intro pre post hsplit hpost
      cases pre with
      | nil =>
        rw [List.nil_append] at hsplit
        rw [← hsplit, List.cons_append, ← hcs]
        exact after?_eq_none_iff.mp hafter
      | cons d pre =>
        rw [List.cons_append, List.cons.injEq] at hsplit
        exact hfirst pre post hsplit.2 hpost

/-- A single character is found where it first stands. -/
theorem splitAtMark?_char (h : x ∉ before) (rest : List Char) :
    splitAtMark? [x] (before ++ x :: rest) = some (before, rest) := by
  refine splitAtMark?_append (by simp) before rest ?_
  rintro pre post rfl hpost ⟨tail, htail⟩
  obtain ⟨c, post, rfl⟩ := List.exists_cons_of_ne_nil hpost
  rw [List.cons_append, List.cons_append, List.cons.injEq] at htail
  rw [← htail.1] at h
  exact h (by simp)

/-- Where a single character is found it stands first. -/
theorem splitAtMark?_char_eq_some {cs rest : List Char}
    (h : splitAtMark? [x] cs = some (before, rest)) : cs = before ++ x :: rest ∧ x ∉ before := by
  obtain ⟨hcs, hfirst⟩ := splitAtMark?_eq_some h
  refine ⟨hcs, fun hmem => ?_⟩
  obtain ⟨pre, post, rfl⟩ := List.append_of_mem hmem
  exact hfirst pre (x :: post) rfl (List.cons_ne_nil _ _) ⟨post ++ ([x] ++ rest), rfl⟩

/-- A mark occurs in a text exactly when it is an infix of it. -/
theorem occursIn_iff {cs : List Char} : occursIn mark cs = true ↔ mark <:+: cs := by
  unfold occursIn
  induction cs with
  | nil =>
    cases mark with
    | nil => simp [splitAtMark?]
    | cons m mark => simp [splitAtMark?]
  | cons c cs ih =>
    rw [List.infix_cons_iff, ← ih, ← beginsWith_iff, beginsWith, splitAtMark?]
    cases after? mark (c :: cs) with
    | none => simp
    | some rest => simp

/-- A single character is not found exactly if it does not stand in the text. -/
theorem splitAtMark?_char_eq_none_iff {cs : List Char} : splitAtMark? [x] cs = none ↔ x ∉ cs := by
  rw [← Option.not_isSome_iff_eq_none, ← occursIn, occursIn_iff, not_iff_not,
    List.singleton_infix_iff]

/-! ### Marks that cannot straddle -/

/-- No occurrence of the mark begins in `u`, whatever follows `u`. -/
def Apart (mark u : List Char) : Prop :=
  ∀ v ∈ u.tails, v = [] ∨ ¬ (v <+: mark ∨ mark <+: v)

instance (mark u : List Char) : Decidable (Apart mark u) :=
  inferInstanceAs (Decidable (∀ v ∈ u.tails, v = [] ∨ ¬ (v <+: mark ∨ mark <+: v)))

/-- A mark and a text are apart if they do not meet here and not further on. -/
theorem apart_cons_iff :
    Apart mark (c :: u) ↔ ¬ (c :: u <+: mark ∨ mark <+: c :: u) ∧ Apart mark u := by
  simp [Apart]

/-- A text that begins in another way than a mark does not begin with the mark. -/
theorem not_begins_of_begins {start cs : List Char} (hstart : start <+: cs)
    (h : ¬ (start <+: mark ∨ mark <+: start)) : ¬ mark <+: cs := by
  intro hmark
  exact h (List.prefix_or_prefix_of_prefix hstart hmark)

/-- The mark does not stand where `u` begins, whatever follows. -/
theorem Apart.not_begins (h : Apart mark (c :: u)) (rest : List Char) : ¬ mark <+: c :: u ++ rest :=
  not_begins_of_begins (List.prefix_append (c :: u) rest) (apart_cons_iff.mp h).1

/-- What is apart from a mark has no end in which the mark could begin. -/
theorem Apart.of_append {v : List Char} (h : Apart mark (u ++ v)) : Apart mark v := by
  intro w hw
  have hsuffix : w <:+ u ++ v := ((List.mem_tails w v).mp hw).trans (List.suffix_append u v)
  exact h w ((List.mem_tails w _).mpr hsuffix)

/-- A mark does not occur in what is apart from it. -/
theorem Apart.not_occurs {m : Char} (h : Apart (m :: mark) u) : ¬ m :: mark <:+: u := by
  rintro ⟨pre, post, rfl⟩
  rw [List.append_assoc] at h
  exact h.of_append.not_begins [] (by simp)

/-- If the mark can begin in neither of two texts, it cannot begin in the one after the other. -/
theorem Apart.append {v : List Char} (hu : Apart mark u) (hv : Apart mark v) :
    Apart mark (u ++ v) := by
  induction u with
  | nil => exact hv
  | cons c u ih =>
    rw [List.cons_append, apart_cons_iff]
    refine ⟨?_, ih (apart_cons_iff.mp hu).2⟩
    rintro (hshort | hlong)
    · exact (apart_cons_iff.mp hu).1 (.inl ((List.prefix_append (c :: u) v).trans hshort))
    · exact hu.not_begins v hlong

/-- What is apart from the first characters of a mark is apart from the mark. -/
theorem Apart.of_start {start : List Char} (hstart : start <+: mark) (h : Apart start u) :
    Apart mark u := by
  intro v hv
  refine (h v hv).imp_right fun hnot => ?_
  rintro (hvm | hmv)
  · exact hnot (List.prefix_or_prefix_of_prefix hvm hstart)
  · exact hnot (.inr (hstart.trans hmv))

/-- A mark that begins with a bracket is apart from a text without one. -/
theorem apart_of_bracket_notMem (h : '<' ∉ u) : Apart ('<' :: mark) u := by
  induction u with
  | nil => simp [Apart]
  | cons c u ih =>
    rw [List.mem_cons, not_or] at h
    rw [apart_cons_iff, List.cons_prefix_cons, List.cons_prefix_cons]
    refine ⟨?_, ih h.2⟩
    rintro (⟨hc, -⟩ | ⟨hc, -⟩)
    · exact h.1 hc.symm
    · exact h.1 hc

/-- A mark that begins with a bracket and has no other one ends before the next bracket. -/
theorem prefix_of_prefix_append_bracket {after : List Char} (hmark : '<' ∉ mark)
    (hbefore : before ≠ []) (h : '<' :: mark <+: before ++ '<' :: after) :
    '<' :: mark <+: before := by
  rcases List.prefix_or_prefix_of_prefix h (List.prefix_append _ _) with hshort | ⟨tail, htail⟩
  · exact hshort
  · -- The mark runs over the text before the bracket, so what is left of it begins there.
    rw [← htail, List.prefix_append_right_inj] at h
    cases tail with
    | nil => rw [← htail, List.append_nil]
    | cons t tail =>
      obtain ⟨rfl, -⟩ := List.cons_prefix_cons.mp h
      obtain ⟨b, before, rfl⟩ := List.exists_cons_of_ne_nil hbefore
      rw [List.cons_append, List.cons.injEq] at htail
      exact absurd (htail.2 ▸ List.mem_append_right _ List.mem_cons_self) hmark

/-- A text that is empty or begins with a bracket. A mark of one bracket does not run over into it. -/
def Bracketed (cs : List Char) : Prop :=
  ∀ c ∈ cs.head?, c = '<'

theorem bracketed_iff {cs : List Char} : Bracketed cs ↔ cs = [] ∨ ∃ after, cs = '<' :: after := by
  cases cs <;> simp [Bracketed]

/-- A character that is not in a text differs from all that are. -/
theorem bne_of_notMem {α : Type} [DecidableEq α] {x : α} {cs : List α} (h : x ∉ cs) :
    ∀ c ∈ cs, (c != x) = true := by
  intro c hc
  rw [bne_iff_ne]
  rintro rfl
  exact h hc

/-! ### Spans -/

section

variable {α : Type} {p : α → Bool} {cs rest : List α}

/-- A span ends where it ended, whatever follows the text, if it ends in the text or cannot go on
behind it. -/
theorem span_append (h : cs.dropWhile p = [] → ∀ c ∈ rest.head?, p c = false) :
    (cs ++ rest).takeWhile p = cs.takeWhile p ∧
      (cs ++ rest).dropWhile p = cs.dropWhile p ++ rest := by
  induction cs with
  | nil =>
    cases rest with
    | nil => exact ⟨rfl, rfl⟩
    | cons c rest => simp [h rfl c rfl]
  | cons c cs ih =>
    cases hc : p c with
    | true => simpa [hc] using ih (by simpa [hc] using h)
    | false => simp [hc]

/-- A span takes all that is of its kind, up to what is not. -/
theorem span_of_forall (hcs : ∀ c ∈ cs, p c = true) (hrest : ∀ c ∈ rest.head?, p c = false) :
    (cs ++ rest).takeWhile p = cs ∧ (cs ++ rest).dropWhile p = rest := by
  have h := span_append fun (_ : cs.dropWhile p = []) => hrest
  rwa [List.takeWhile_eq_self_iff.mpr hcs, List.dropWhile_eq_nil_iff.mpr hcs] at h

/-- Behind a span stands what is not of its kind. -/
theorem of_mem_head?_dropWhile {c : α} (h : c ∈ (cs.dropWhile p).head?) : p c = false := by
  have hall := List.head?_dropWhile_not p cs
  rw [Option.mem_def.mp h] at hall
  simpa using hall

/-- Where dropping stops, the dropped front is what was taken, and the next element fails the test.
-/
theorem of_dropWhile_eq_cons {c : α} (h : cs.dropWhile p = c :: rest) :
    cs = cs.takeWhile p ++ c :: rest ∧ p c = false :=
  ⟨by rw [← h, List.takeWhile_append_dropWhile], of_mem_head?_dropWhile (by rw [h]; rfl)⟩

end

/-- Reading up to a character stops at the first one. -/
theorem takeWhile_bne_append {α : Type} [DecidableEq α] {x : α} {cs : List α} (h : x ∉ cs)
    (rest : List α) : (cs ++ x :: rest).takeWhile (· != x) = cs :=
  (span_of_forall (bne_of_notMem h) (by simp)).1

/-- What is left after reading up to a character begins with it. -/
theorem dropWhile_bne_append {α : Type} [DecidableEq α] {x : α} {cs : List α} (h : x ∉ cs)
    (rest : List α) : (cs ++ x :: rest).dropWhile (· != x) = x :: rest :=
  (span_of_forall (bne_of_notMem h) (by simp)).2

/-- What is left after dropping up to a character is that character and what follows it. -/
theorem eq_append_of_dropWhile_bne {y : Char} {cs rest : List Char}
    (h : cs.dropWhile (· != x) = y :: rest) :
    cs = cs.takeWhile (· != x) ++ x :: rest ∧ x ∉ cs.takeWhile (· != x) := by
  obtain ⟨hcs, hy⟩ := of_dropWhile_eq_cons h
  rw [bne_eq_false_iff_eq] at hy
  exact ⟨hy ▸ hcs, fun hx => by simpa using List.mem_takeWhile_imp hx⟩

/-! ### Pieces -/

section

variable {α : Type} {p : α → Bool}

theorem splitWhere_ne_nil (cs : List α) : splitWhere p cs ≠ [] := by
  cases cs with
  | nil => exact List.cons_ne_nil _ _
  | cons c cs =>
    rw [splitWhere]
    split
    · exact List.cons_ne_nil _ _
    · split <;> exact List.cons_ne_nil _ _

/-- A text is split where it was put together. -/
theorem splitWhere_append_cons {x : α} (hx : p x = true) (front rest : List α) :
    splitWhere p (front ++ x :: rest) = splitWhere p front ++ splitWhere p rest := by
  induction front with
  | nil => simp [splitWhere, hx]
  | cons c front ih =>
    by_cases hc : p c = true
    · simp [splitWhere, hc, ih]
    · cases hfront : splitWhere p front with
      | nil => exact absurd hfront (splitWhere_ne_nil front)
      | cons piece pieces => simp [splitWhere, hc, ih, hfront]

/-- A text without a place to cut is one piece. -/
theorem splitWhere_of_forall {cs : List α} (h : ∀ c ∈ cs, p c = false) :
    splitWhere p cs = [cs] := by
  induction cs with
  | nil => rfl
  | cons c cs ih =>
    obtain ⟨hc, hcs⟩ := List.forall_mem_cons.mp h
    simp [splitWhere, hc, ih hcs]

/-- What is between two marks has no mark in it. -/
theorem forall_of_mem_splitWhere {cs piece : List α} (h : piece ∈ splitWhere p cs) :
    ∀ c ∈ piece, p c = false := by
  induction cs generalizing piece with
  | nil =>
    rw [splitWhere, List.mem_singleton] at h
    rw [h]
    exact List.forall_mem_nil _
  | cons c cs ih =>
    by_cases hc : p c = true
    · rw [splitWhere, if_pos hc] at h
      rcases List.mem_cons.mp h with rfl | h
      · exact List.forall_mem_nil _
      · exact ih h
    · cases hcs : splitWhere p cs with
      | nil => exact absurd hcs (splitWhere_ne_nil cs)
      | cons first pieces =>
        rw [splitWhere, if_neg hc, hcs] at h
        rw [hcs] at ih
        rcases List.mem_cons.mp h with rfl | h
        · exact List.forall_mem_cons.mpr ⟨Bool.eq_false_iff.mpr hc, ih List.mem_cons_self⟩
        · exact ih (List.mem_cons_of_mem _ h)

end

/-! ### Case -/

@[simp]
theorem toLower_toLower (c : Char) : c.toLower.toLower = c.toLower := by
  unfold Char.toLower
  split <;> grind

@[simp]
theorem lowerChars_lowerChars (cs : List Char) : lowerChars (lowerChars cs) = lowerChars cs := by
  simp [lowerChars, Function.comp_def]

/-- Folding a name twice is folding it once. -/
@[simp]
theorem lower_lower (s : String) : lower (lower s) = lower s := by
  simp [lower]

@[simp]
theorem sameName_self (s : String) : sameName s s = true := by
  simp [sameName]

/-- A character is folded to itself, unless it is a capital: that one is folded to its small letter,
which comes 32 places later. -/
theorem toLower_cases (c : Char) :
    c.toLower = c ∨ 65 ≤ c.toNat ∧ c.toNat ≤ 90 ∧ c.toLower.toNat = c.toNat + 32 := by
  unfold Char.toLower
  split
  · rename_i hupper
    have hlow : 65 ≤ c.toNat := UInt32.le_iff_toNat_le.mp hupper.1
    have hhigh : c.toNat ≤ 90 := UInt32.le_iff_toNat_le.mp hupper.2
    have hoffset : ('a'.val - 'A'.val).toNat = 32 := by decide
    refine .inr ⟨hlow, hhigh, ?_⟩
    simp only [Char.toNat_mk, UInt32.toNat_add, hoffset, Char.toNat_val]
    omega
  · exact .inl rfl

/-- A character before the small letters comes from no capital by folding. -/
theorem eq_of_toLower (hd : d < 'a') (h : c.toLower = d) : c = d := by
  rcases toLower_cases c with hsame | ⟨hlow, hhigh, hcode⟩
  · exact hsame.symm.trans h
  · -- A capital folds to a small letter, whose code is larger.
    have hsmall : d.toNat < 97 := hd
    rw [h] at hcode
    omega

/-- A character before the capitals, and only that one, folds to itself. -/
theorem toLower_beq (hd : d < 'A') (c : Char) : (c.toLower == d) = (c == d) := by
  have hcode : d.toNat < 65 := hd
  rw [Bool.eq_iff_iff, beq_iff_eq, beq_iff_eq]
  constructor
  · exact eq_of_toLower (Char.lt_trans hd (by decide))
  · intro h
    rw [h]
    rcases toLower_cases d with hsame | ⟨hlow, -, -⟩
    · exact hsame
    · omega

/-- Only the opening bracket itself folds to one. -/
theorem eq_bracket_of_toLower (h : c.toLower = '<') : c = '<' :=
  eq_of_toLower (by decide) h

/-- Looking for a folded mark at the front is looking for the mark in the folded text. -/
theorem beginsWithFolded_iff {cs : List Char} :
    beginsWithFolded mark cs = true ↔ mark <+: lowerChars cs := by
  induction mark generalizing cs with
  | nil => simp [beginsWithFolded]
  | cons m mark ih =>
    cases cs with
    | nil => simp [beginsWithFolded, lowerChars]
    | cons c cs =>
      show (m == c.toLower && beginsWithFolded mark cs) = true ↔
        m :: mark <+: c.toLower :: lowerChars cs
      rw [Bool.and_eq_true, beq_iff_eq, ih, List.cons_prefix_cons]

/-- The search for a folded mark that begins with a bracket and has no other one stops where the
mark was put, if the mark does not occur before. -/
theorem spanFolded_append_bracket (hmark : '<' ∉ mark) (before after : List Char)
    (habsent : ¬ '<' :: mark <:+: lowerChars before)
    (hhere : beginsWithFolded ('<' :: mark) ('<' :: after) = true) :
    spanFolded ('<' :: mark) (before ++ '<' :: after) = (before, '<' :: after) := by
  induction before with
  | nil => rw [List.nil_append, spanFolded, if_pos hhere]
  | cons c before ih =>
    have hfolded : lowerChars (c :: before) = c.toLower :: lowerChars before := rfl
    rw [hfolded, List.infix_cons_iff, not_or] at habsent
    have hnot : ¬ beginsWithFolded ('<' :: mark) (c :: (before ++ '<' :: after)) = true := by
      rw [beginsWithFolded_iff]
      intro hprefix
      have hsplit : lowerChars (c :: (before ++ '<' :: after)) =
          (c.toLower :: lowerChars before) ++ '<' :: lowerChars after := by
        simp [lowerChars]
      rw [hsplit] at hprefix
      exact habsent.1 (prefix_of_prefix_append_bracket hmark (List.cons_ne_nil _ _) hprefix)
    rw [List.cons_append, spanFolded, if_neg hnot, ih habsent.2]

/-! ### Blanks at the ends -/

theorem trimLeft_suffix (cs : List Char) : trimLeft cs <:+ cs :=
  List.dropWhile_suffix _

theorem trimLeft_cons (h : isBlank c = false) (cs : List Char) : trimLeft (c :: cs) = c :: cs := by
  rw [trimLeft, List.dropWhile_cons_of_neg (by simp [h])]

theorem trimLeft_eq_self {cs : List Char} (h : ∀ c ∈ cs.head?, isBlank c = false) :
    trimLeft cs = cs := by
  cases cs with
  | nil => rfl
  | cons c cs => exact trimLeft_cons (h c rfl) cs

/-- Text behind does not change what is trimmed, unless all before it is blank. -/
theorem trimLeft_append_of_ne_nil {cs : List Char} (h : trimLeft cs ≠ []) (rest : List Char) :
    trimLeft (cs ++ rest) = trimLeft cs ++ rest :=
  (span_append fun hnil => absurd hnil h).2

/-- Nor does text before, on the other side. -/
theorem trimRight_append_of_ne_nil (front : List Char) {cs : List Char} (h : trimRight cs ≠ []) :
    trimRight (front ++ cs) = front ++ trimRight cs := by
  have hne : trimLeft cs.reverse ≠ [] := by simpa [trimRight, trimLeft] using h
  have htrim := trimLeft_append_of_ne_nil hne front.reverse
  simp only [trimLeft] at htrim
  rw [trimRight, List.reverse_append, htrim, List.reverse_append, List.reverse_reverse, trimRight]

theorem trimRight_cons (h : isBlank c = false) (cs : List Char) :
    trimRight (c :: cs) = c :: trimRight cs := by
  have hlast : [c].dropWhile isBlank = [c] := trimLeft_cons h []
  rw [trimRight, List.reverse_cons, List.dropWhile_append, hlast]
  split
  · rename_i hblank
    rw [trimRight, List.isEmpty_iff.mp hblank]
    rfl
  · rw [List.reverse_append, trimRight]
    rfl

/-- What is dropped at the end of a text are blanks. -/
theorem exists_blanks_of_trimRight (cs : List Char) :
    ∃ blanks, cs = trimRight cs ++ blanks ∧ ∀ c ∈ blanks, isBlank c = true := by
  refine ⟨(cs.reverse.takeWhile isBlank).reverse, ?_, ?_⟩
  · rw [trimRight, ← List.reverse_append, List.takeWhile_append_dropWhile, List.reverse_reverse]
  · intro c hc
    exact List.mem_takeWhile_imp (List.mem_reverse.mp hc)

/-- A text with no blank at either end. -/
def Unpadded (cs : List Char) : Prop :=
  (∀ c ∈ cs.head?, isBlank c = false) ∧ ∀ c ∈ cs.getLast?, isBlank c = false

instance (cs : List Char) : Decidable (Unpadded cs) :=
  decidable_of_iff
    (cs.head?.all (fun c => !isBlank c) = true ∧ cs.getLast?.all (fun c => !isBlank c) = true)
    (by simp [Unpadded, Option.all_eq_true])

/-- Trimming leaves no blank at either end. -/
theorem unpadded_trimChars (cs : List Char) : Unpadded (trimChars cs) := by
  constructor
  · intro c hc
    have hprefix : trimChars cs <+: trimLeft cs := by
      rw [← List.reverse_suffix, trimChars, trimRight, List.reverse_reverse]
      exact List.dropWhile_suffix _
    -- Dropping the blanks at the end leaves the first character where it is.
    obtain ⟨more, hmore⟩ := hprefix
    have hhead : c ∈ (trimLeft cs).head? := by
      rw [← hmore, List.head?_append, Option.mem_def.mp hc]
      rfl
    exact of_mem_head?_dropWhile hhead
  · intro c hc
    rw [trimChars, trimRight, List.getLast?_reverse] at hc
    exact of_mem_head?_dropWhile hc

/-- A text without any blank has none at its ends. -/
theorem unpadded_of_forall {cs : List Char} (h : ∀ c ∈ cs, isBlank c = false) : Unpadded cs :=
  ⟨fun c hc => h c (List.mem_of_mem_head? hc), fun c hc => h c (List.mem_of_mem_getLast? hc)⟩

/-- Trimming leaves a text without blanks at its ends as it is. -/
theorem Unpadded.trimChars_eq {cs : List Char} (h : Unpadded cs) : trimChars cs = cs := by
  rw [trimChars, trimLeft_eq_self h.1, trimRight]
  cases hrev : cs.reverse with
  | nil => simpa using hrev
  | cons c rest =>
    have hlast : cs.getLast? = some c := by rw [← List.head?_reverse, hrev, List.head?_cons]
    rw [List.dropWhile_cons_of_neg (by simp [h.2 c hlast]), ← hrev, List.reverse_reverse]

/-- Texts without blanks at their ends may be put side by side. -/
theorem Unpadded.append {cs ds : List Char} (h : Unpadded cs) (hother : Unpadded ds) :
    Unpadded (cs ++ ds) := by
  constructor
  · cases cs with
    | nil => exact hother.1
    | cons c cs => exact h.1
  · intro c hc
    rw [List.getLast?_append] at hc
    cases hlast : ds.getLast? with
    | none =>
      rw [hlast] at hc
      exact h.2 c hc
    | some d =>
      rw [hlast] at hc
      cases hc
      exact hother.2 c hlast

/-- What comes between two texts without blanks at their ends may be anything. -/
theorem Unpadded.around {cs ds : List Char} (h : Unpadded cs) (hcs : cs ≠ [])
    (hother : Unpadded ds) (hds : ds ≠ []) (between : List Char) :
    Unpadded (cs ++ (between ++ ds)) := by
  constructor
  · cases cs with
    | nil => exact absurd rfl hcs
    | cons c cs => exact h.1
  · rw [← List.append_assoc, List.getLast?_append_of_ne_nil _ hds]
    exact hother.2

/-- What stands between two characters that are no blanks has no blanks around it. -/
theorem unpadded_bracketed (hc : isBlank c = false) (hd : isBlank d = false) (between : List Char) :
    Unpadded (c :: (between ++ [d])) := by
  have hfirst : Unpadded [c] := unpadded_of_forall (List.forall_mem_singleton.mpr hc)
  have hlast : Unpadded [d] := unpadded_of_forall (List.forall_mem_singleton.mpr hd)
  exact hfirst.around (List.cons_ne_nil _ _) hlast (List.cons_ne_nil _ _) between

/-- What is left of a text without blanks at its ends is not just blanks. -/
theorem Unpadded.eq_nil_of_suffix {cs rest : List Char} (h : Unpadded cs) (hsuffix : rest <:+ cs)
    (hblank : trimLeft rest = []) : rest = [] := by
  rcases List.eq_nil_or_concat rest with hnil | ⟨front, c, hrest⟩
  · exact hnil
  · obtain ⟨before, hcs⟩ := hsuffix
    have hlast : cs.getLast? = some c := by
      rw [← hcs, hrest, List.concat_eq_append, ← List.append_assoc, List.getLast?_concat]
    have hc : isBlank c = true := by
      refine List.dropWhile_eq_nil_iff.mp hblank c ?_
      rw [hrest, List.concat_eq_append]
      exact List.mem_append_right front List.mem_cons_self
    rw [h.2 c hlast] at hc
    cases hc

/-! ### Characters of names -/

/-- A letter, a digit or a hyphen: what the names of elements are made of. -/
def isNameChar (c : Char) : Bool :=
  c.isAlphanum || c == '-'

/-- The letters and digits, by their codes. -/
theorem isAlphanum_iff :
    c.isAlphanum = true ↔
      (65 ≤ c.toNat ∧ c.toNat ≤ 90 ∨ 97 ≤ c.toNat ∧ c.toNat ≤ 122) ∨
        48 ≤ c.toNat ∧ c.toNat ≤ 57 := by
  show (decide ('A'.val ≤ c.val ∧ c.val ≤ 'Z'.val) ||
      (decide ('a'.val ≤ c.val) && decide (c.val ≤ 'z'.val)) ||
      (decide ('0'.val ≤ c.val) && decide (c.val ≤ '9'.val))) = true ↔ _
  simp only [Bool.or_eq_true, Bool.and_eq_true, decide_eq_true_eq, UInt32.le_iff_toNat_le]
  rfl

/-- The letters, by their codes. -/
theorem isAlpha_iff :
    c.isAlpha = true ↔ 65 ≤ c.toNat ∧ c.toNat ≤ 90 ∨ 97 ≤ c.toNat ∧ c.toNat ≤ 122 := by
  show (decide ('A'.val ≤ c.val ∧ c.val ≤ 'Z'.val) ||
      (decide ('a'.val ≤ c.val) && decide (c.val ≤ 'z'.val))) = true ↔ _
  simp only [Bool.or_eq_true, Bool.and_eq_true, decide_eq_true_eq, UInt32.le_iff_toNat_le]
  rfl

theorem isAlpha_toLower (c : Char) : c.toLower.isAlpha = c.isAlpha := by
  rw [Bool.eq_iff_iff, isAlpha_iff, isAlpha_iff]
  rcases toLower_cases c with h | ⟨hlow, hhigh, h⟩
  · rw [h]
  · rw [h]
    omega

theorem isAlphanum_toLower (c : Char) : c.toLower.isAlphanum = c.isAlphanum := by
  rw [Bool.eq_iff_iff, isAlphanum_iff, isAlphanum_iff]
  rcases toLower_cases c with h | ⟨hlow, hhigh, h⟩
  · rw [h]
  · rw [h]
    omega

/-- No character of a name is a blank. -/
theorem isBlank_of_isNameChar (h : isNameChar c = true) : isBlank c = false := by
  unfold isNameChar at h
  rw [Bool.or_eq_true, isAlphanum_iff, beq_iff_eq] at h
  unfold isBlank
  -- The codes of letters, digits and the hyphen, each apart from those of the blanks.
  rcases h with ((h | h) | h) | rfl
  · simp_all; omega
  · simp_all; omega
  · simp_all; omega
  · rfl

/-- Folding makes no blank and takes none away. -/
theorem isBlank_toLower (c : Char) : isBlank c.toLower = isBlank c := by
  rcases toLower_cases c with h | ⟨hlow, hhigh, h⟩
  · rw [h]
  · rw [Bool.eq_iff_iff]
    simp only [isBlank, h, Bool.or_eq_true, Bool.and_eq_true, decide_eq_true_eq, beq_iff_eq]
    omega

/-- Folding makes no control character and takes none away. -/
theorem isControl_toLower (c : Char) : isControl c.toLower = isControl c := by
  rcases toLower_cases c with h | ⟨hlow, hhigh, h⟩
  · rw [h]
  · rw [Bool.eq_iff_iff]
    simp only [isControl, h, Bool.or_eq_true, Bool.and_eq_true, decide_eq_true_eq]
    omega

/-- Folding leaves the ends of a text as padded as they are. -/
theorem unpadded_lowerChars {cs : List Char} : Unpadded (lowerChars cs) ↔ Unpadded cs := by
  simp [Unpadded, lowerChars, List.head?_map, List.getLast?_map, isBlank_toLower]

end EmailMarkup.Text
