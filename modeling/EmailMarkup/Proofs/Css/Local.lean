import EmailMarkup.Css.Token
import EmailMarkup.Proofs.Text

/-!
# A semicolon ends what stands before it

Whether a semicolon in a style sheet is a token or part of one (of a string, an address, a comment
or an escape) is settled by what stands before it. No scanner looks past a semicolon: given texts
that differ only behind one (`Twins`), it takes the same of both, or it takes the semicolon of both
(`Agree`). The lemmas on scanners follow their definitions.

So what stands behind a semicolon that is a token can be replaced (`readTokens_replace`).
-/

set_option autoImplicit false

namespace EmailMarkup.Css

open EmailMarkup.Text

/-! ### Texts that differ behind a semicolon -/

/-- Texts that are the same up to a semicolon, with `more` behind it in one and `other` in the
other. -/
inductive Twins (more other : List Char) : List Char → List Char → Prop
  | semicolon : Twins more other (';' :: more) (';' :: other)
  | cons {cs ds : List Char} (c : Char) (h : Twins more other cs ds) :
    Twins more other (c :: cs) (c :: ds)

variable {more other cs ds : List Char}

/-- Texts with the same front and a semicolon behind it are twins. -/
theorem twins_append (front more other : List Char) :
    Twins more other (front ++ ';' :: more) (front ++ ';' :: other) := by
  induction front with
  | nil => exact .semicolon
  | cons c front ih => exact .cons c ih

namespace Twins

/-- Twins begin alike, since the semicolon itself is part of both. -/
theorem head? (h : Twins more other cs ds) : cs.head? = ds.head? := by
  cases h <;> rfl

/-- A line break stands at the front of both or of none. -/
theorem atNewline (h : Twins more other cs ds) : atNewline cs = atNewline ds := by
  cases h <;> rfl

/-- So does a digit. -/
theorem atDigit (h : Twins more other cs ds) : atDigit cs = atDigit ds := by
  cases h <;> rfl

/-- The tests that look two characters ahead agree as well: a semicolon, if there is one among the
two, fails them before they come to what differs. -/
theorem atFraction (h : Twins more other cs ds) : atFraction cs = atFraction ds := by
  cases h with
  | semicolon => rfl
  | cons c h =>
    by_cases hc : c = '.'
    · subst hc
      exact h.atDigit
    · simp [Css.atFraction, hc]

/-- A name begins in both or in none. -/
theorem atName (h : Twins more other cs ds) : atName cs = atName ds := by
  cases h with
  | semicolon => rfl
  | cons c h =>
    by_cases hminus : c = '-'
    · subst hminus
      cases h <;> rfl
    by_cases hslash : c = '\\'
    · subst hslash
      exact congrArg Bool.not h.atNewline
    · simp [Css.atName, hminus]

/-- A number begins in both or in none. -/
theorem startsNumber (c : Char) (h : Twins more other cs ds) :
    startsNumber c cs = startsNumber c ds := by
  rw [Css.startsNumber, Css.startsNumber, h.atDigit, h.atFraction]

/-- A mark without a semicolon stands at the front of both or of none. -/
theorem mark_cases (h : Twins more other cs ds) (mark : List Char) (hmark : ';' ∉ mark) :
    (∃ cs' ds', cs = mark ++ cs' ∧ ds = mark ++ ds' ∧ Twins more other cs' ds') ∨
      (¬ mark <+: cs ∧ ¬ mark <+: ds) := by
  induction mark generalizing cs ds with
  | nil => exact .inl ⟨cs, ds, rfl, rfl, h⟩
  | cons m mark ih =>
    rw [List.mem_cons, not_or] at hmark
    cases h with
    | semicolon => exact .inr ⟨by simp [Ne.symm hmark.1], by simp [Ne.symm hmark.1]⟩
    | cons c h =>
      by_cases hm : m = c
      · subst hm
        obtain ⟨cs', ds', rfl, rfl, hrest⟩ | hnot := ih h hmark.2
        · exact .inl ⟨cs', ds', rfl, rfl, hrest⟩
        · exact .inr (by simpa using hnot)
      · exact .inr (by simp [hm])

end Twins

/-- Cuts of such texts: they take the same and leave such texts, or both of them take the
semicolon. -/
def Agree (more other : List Char) {cs ds : List Char} (k : Cut cs) (l : Cut ds) : Prop :=
  (k.taken = l.taken ∧ Twins more other k.rest l.rest) ∨
    (k.rest.length ≤ more.length ∧ l.rest.length ≤ other.length)

/-- A scanner that takes nothing agrees on twins. -/
theorem Twins.nothing (h : Twins more other cs ds) :
    Agree more other (.nothing cs) (.nothing ds) :=
  .inl ⟨rfl, h⟩

/-- If the semicolon itself is taken, the scanners may go on as they like. -/
theorem agree_semicolon (k : Cut more) (l : Cut other) :
    Agree more other (.cons ';' k) (.cons ';' l) :=
  .inr ⟨k.length_rest_le, l.length_rest_le⟩

/-- One more character before texts that are cut alike. -/
theorem Agree.cons (c : Char) {k : Cut cs} {l : Cut ds} (h : Agree more other k l) :
    Agree more other (.cons c k) (.cons c l) :=
  h.imp_left fun ⟨htaken, hrest⟩ => ⟨congrArg (c :: ·) htaken, hrest⟩

/-- One scanner after another. The second matters only if the first left the semicolon. -/
theorem Agree.andThen (f : (cs : List Char) → Cut cs) {k : Cut cs} {l : Cut ds}
    (h : Agree more other k l)
    (hf : Twins more other k.rest l.rest → Agree more other (f k.rest) (f l.rest)) :
    Agree more other (k.andThen (f k.rest)) (l.andThen (f l.rest)) := by
  obtain ⟨htaken, hrest⟩ | ⟨hk, hl⟩ := h
  · refine (hf hrest).imp_left fun ⟨hnext, hafter⟩ => ⟨?_, hafter⟩
    show k.taken ++ _ = l.taken ++ _
    rw [htaken, hnext]
  · exact .inr ⟨(f k.rest).length_rest_le.trans hk, (f l.rest).length_rest_le.trans hl⟩

theorem span_cons (p : Char → Bool) (c : Char) (cs : List Char) :
    Cut.span p (c :: cs) = if p c then .cons c (.span p cs) else .nothing (c :: cs) := by
  unfold Cut.span Cut.cons Cut.nothing
  split <;> simp [*]

/-- Taking characters of a class stops at the semicolon at the latest, as long as the class does not
hold it. -/
theorem Twins.span {p : Char → Bool} (hp : p ';' = false) (h : Twins more other cs ds) :
    (Cut.span p cs).taken = (Cut.span p ds).taken ∧
      Twins more other (Cut.span p cs).rest (Cut.span p ds).rest := by
  induction h with
  | semicolon =>
    rw [span_cons, span_cons, hp]
    exact ⟨rfl, .semicolon⟩
  | cons c h ih =>
    rw [span_cons, span_cons]
    split
    · exact ⟨congrArg (c :: ·) ih.1, ih.2⟩
    · exact ⟨rfl, h.cons c⟩

/-- Digits end before the semicolon. -/
theorem Twins.digits (h : Twins more other cs ds) :
    Agree more other (.span Char.isDigit cs) (.span Char.isDigit ds) :=
  .inl (h.span rfl)

/-! ### Scanners -/

/-- The digits of an escape too, of which there are at most six. -/
theorem Twins.hexDigits (n : Nat) (h : Twins more other cs ds) :
    Agree more other (hexDigits n cs) (hexDigits n ds) := by
  induction n generalizing cs ds with
  | zero => exact h.nothing
  | succ n ih =>
    cases h with
    | semicolon => exact Twins.semicolon.nothing
    | cons c h =>
      rw [Css.hexDigits, Css.hexDigits]
      split
      · exact (ih h).cons c
      · exact (h.cons c).nothing

/-- One blank is one character, unless it is a line break of two. -/
theorem oneBlank_of_not_crlf {c : Char} {cs : List Char} (h : ¬ ['\r', '\n'] <+: c :: cs) :
    oneBlank (c :: cs) = if isAsciiBlank c then .cons c (.nothing cs) else .nothing (c :: cs) := by
  rw [oneBlank]
  rintro rest rfl rfl
  exact h ⟨rest, rfl⟩

/-- The blank behind an escape, or none, is the same in both. -/
theorem Twins.oneBlank (h : Twins more other cs ds) :
    Agree more other (oneBlank cs) (oneBlank ds) := by
  obtain ⟨cs, ds, rfl, rfl, hrest⟩ | ⟨hcs, hds⟩ := h.mark_cases ['\r', '\n'] (by decide)
  · exact (hrest.nothing.cons '\n').cons '\r'
  · cases h with
    | semicolon => exact Twins.semicolon.nothing
    | cons c h =>
      rw [oneBlank_of_not_crlf hcs, oneBlank_of_not_crlf hds]
      split
      · exact h.nothing.cons c
      · exact (h.cons c).nothing

/-- An escape is the first scanner that may take the semicolon, as the character that it escapes. -/
theorem Twins.escape (h : Twins more other cs ds) : Agree more other (escape cs) (escape ds) := by
  cases h with
  | semicolon => exact agree_semicolon (.nothing more) (.nothing other)
  | cons c h =>
    rw [Css.escape, Css.escape]
    split
    · exact ((h.cons c).hexDigits 6).andThen Css.oneBlank Twins.oneBlank
    · exact h.nothing.cons c

/-- A name is scanned alike. The induction is on its length, since an escape in it takes several
characters. -/
theorem Twins.name {cs ds : List Char} (h : Twins more other cs ds) :
    Agree more other (name cs) (name ds) := by
  cases h with
  | semicolon =>
    rw [Css.name, Css.name]
    exact Twins.semicolon.nothing
  | cons c h =>
    rw [Css.name, Css.name, h.atNewline]
    split
    · split
      · exact (h.cons c).nothing
      · exact (h.escape.andThen Css.name Twins.name).cons c
    · split
      · exact h.name.cons c
      · exact (h.cons c).nothing
termination_by cs.length
decreasing_by
  · exact Nat.lt_succ_self _
  · exact Nat.lt_succ_of_le (Cut.length_rest_le _)

/-- A comment ends at the same mark in both, or it takes the semicolon and with it all that differs.
-/
theorem Twins.comment (h : Twins more other cs ds) :
    Agree more other (comment cs) (comment ds) := by
  induction h with
  | semicolon => exact agree_semicolon (Css.comment more) (Css.comment other)
  | @cons cs ds c h ih =>
    obtain ⟨cs', ds', hcs, hds, h'⟩ | ⟨hcs, hds⟩ :=
      (h.cons c).mark_cases ['*', '/'] (by decide)
    · cases hcs
      cases hds
      exact (h'.nothing.cons '/').cons '*'
    · have hopen {rest : List Char} (hrest : ¬ ['*', '/'] <+: c :: rest) :
          Css.comment (c :: rest) = .cons c (Css.comment rest) := by
        rw [Css.comment]
        rintro after rfl rfl
        exact hrest ⟨after, rfl⟩
      rw [hopen hcs, hopen hds]
      exact ih.cons c

/-- An escape in a string may take the semicolon too. -/
theorem Twins.escapeInString (h : Twins more other cs ds) :
    Agree more other (escapeInString cs) (escapeInString ds) := by
  rw [Css.escapeInString, Css.escapeInString, h.atNewline]
  split
  · exact h.oneBlank
  · exact h.escape

/-- A string ends at the same quote in both, or it takes the semicolon. -/
theorem Twins.string (quote : Char) {cs ds : List Char} (h : Twins more other cs ds) :
    Agree more other (string quote cs) (string quote ds) := by
  cases h with
  | semicolon =>
    rw [Css.string, Css.string]
    split
    · exact agree_semicolon _ _
    · exact agree_semicolon _ _
  | cons c h =>
    rw [Css.string, Css.string]
    split
    · exact h.nothing.cons c
    split
    · exact (h.cons c).nothing
    split
    · exact (h.escapeInString.andThen (Css.string quote) (Twins.string quote)).cons c
    · exact (h.string quote).cons c
termination_by cs.length
decreasing_by
  · exact Nat.lt_succ_self _
  · exact Nat.lt_succ_of_le (Cut.length_rest_le _)

/-- The fraction of a number, or none, is the same in both. -/
theorem Twins.fraction (h : Twins more other cs ds) :
    Agree more other (fraction cs) (fraction ds) := by
  cases h with
  | semicolon => exact Twins.semicolon.nothing
  | cons c h =>
    rw [Css.fraction, Css.fraction, h.atDigit]
    split
    · exact h.digits.cons c
    · exact (h.cons c).nothing

/-- So is its exponent. -/
theorem Twins.exponent (h : Twins more other cs ds) :
    Agree more other (exponent cs) (exponent ds) := by
  cases h with
  | semicolon =>
    -- An exponent is told by two characters. The second is of no account behind a semicolon.
    cases more <;> cases other <;> exact Twins.semicolon.nothing
  | cons e h =>
    cases h with
    | semicolon =>
      rw [Css.exponent, Css.exponent]
      split
      · exact (Twins.semicolon.cons e).nothing
      · exact (Twins.semicolon.cons e).nothing
    | cons sign h =>
      rw [Css.exponent, Css.exponent, h.atDigit]
      split
      · split
        · exact (h.cons sign).digits.cons e
        split
        · exact (h.digits.cons sign).cons e
        · exact ((h.cons sign).cons e).nothing
      · exact ((h.cons sign).cons e).nothing

/-- So is its unit. -/
theorem Twins.unit (h : Twins more other cs ds) : Agree more other (unit cs) (unit ds) := by
  obtain ⟨cs, ds, rfl, rfl, hrest⟩ | ⟨hcs, hds⟩ := h.mark_cases ['%'] (by decide)
  · exact hrest.nothing.cons '%'
  · have hplain {cs : List Char} (hcs : ¬ ['%'] <+: cs) :
        Css.unit cs = if Css.atName cs then Css.name cs else .nothing cs := by
      rw [Css.unit]
      rintro rest rfl
      exact hcs ⟨rest, rfl⟩
    rw [hplain hcs, hplain hds, h.atName]
    split
    · exact h.name
    · exact h.nothing

/-- A number with its fraction, exponent and unit ends before the semicolon. -/
theorem Twins.number (c : Char) (h : Twins more other cs ds) :
    Agree more other (number c cs) (number c ds) := by
  have hdecimals {cs ds : List Char} (h : Twins more other cs ds) :
      Agree more other (if c == '.' then Cut.nothing cs else Css.fraction cs)
        (if c == '.' then Cut.nothing ds else Css.fraction ds) := by
    split
    · exact h.nothing
    · exact h.fraction
  have hdigits := h.digits.andThen
    (fun cs => if c == '.' then Cut.nothing cs else Css.fraction cs) hdecimals
  exact (hdigits.andThen Css.exponent Twins.exponent).andThen Css.unit Twins.unit

/-- What is left of a broken address may run over the semicolon, and then does so in both. -/
theorem Twins.badUrl {cs ds : List Char} (h : Twins more other cs ds) :
    Agree more other (badUrl cs) (badUrl ds) := by
  obtain ⟨cs, ds, rfl, rfl, hrest⟩ | hclose := h.mark_cases [')'] (by decide)
  · exact hrest.nothing.cons ')'
  obtain ⟨cs, ds, rfl, rfl, hrest⟩ | hbracket := h.mark_cases ['\\', ')'] (by decide)
  · exact (hrest.badUrl.cons ')').cons '\\'
  obtain ⟨cs, ds, rfl, rfl, hrest⟩ | hslash := h.mark_cases ['\\', '\\'] (by decide)
  · exact (hrest.badUrl.cons '\\').cons '\\'
  cases h with
  | semicolon => exact agree_semicolon (Css.badUrl more) (Css.badUrl other)
  | cons c h =>
    have hplain {cs : List Char} (hclose : ¬ [')'] <+: c :: cs)
        (hbracket : ¬ ['\\', ')'] <+: c :: cs) (hslash : ¬ ['\\', '\\'] <+: c :: cs) :
        Css.badUrl (c :: cs) = .cons c (Css.badUrl cs) := by
      rw [Css.badUrl]
      · rintro rfl
        exact hclose ⟨cs, rfl⟩
      · rintro rest rfl rfl
        exact hbracket ⟨rest, rfl⟩
      · rintro rest rfl rfl
        exact hslash ⟨rest, rfl⟩
    rw [hplain hclose.1 hbracket.1 hslash.1, hplain hclose.2 hbracket.2 hslash.2]
    exact h.badUrl.cons c
termination_by cs.length

/-- An address ends at the same bracket in both, or it is broken in both. -/
theorem Twins.urlEnd (h : Twins more other cs ds) : Agree more other (urlEnd cs) (urlEnd ds) := by
  induction h with
  | semicolon => exact agree_semicolon (Css.badUrl more) (Css.badUrl other)
  | cons c h ih =>
    rw [Css.urlEnd, Css.urlEnd]
    split
    · exact ih.cons c
    split
    · exact h.nothing.cons c
    · exact h.badUrl.cons c

/-- An address without quotes is scanned alike. -/
theorem Twins.urlBody {cs ds : List Char} (h : Twins more other cs ds) :
    Agree more other (urlBody cs) (urlBody ds) := by
  cases h with
  | semicolon =>
    rw [Css.urlBody, Css.urlBody]
    exact agree_semicolon _ _
  | cons c h =>
    rw [Css.urlBody, Css.urlBody, h.atNewline]
    split
    · exact h.nothing.cons c
    split
    · exact h.urlEnd.cons c
    split
    · exact h.badUrl.cons c
    split
    · split
      · exact h.badUrl.cons c
      · exact (h.escape.andThen Css.urlBody Twins.urlBody).cons c
    · exact h.urlBody.cons c
termination_by cs.length
decreasing_by
  · exact Nat.lt_succ_self _
  · exact Nat.lt_succ_of_le (Cut.length_rest_le _)

/-! ### Tokens -/

/-- Tokens of such texts: they are the same and leave such texts, or both of them take the
semicolon. -/
def TokenAgree (more other : List Char) {cs ds : List Char} (t : Kind × Cut cs)
    (u : Kind × Cut ds) : Prop :=
  (t.1 = u.1 ∧ t.2.taken = u.2.taken ∧ Twins more other t.2.rest u.2.rest) ∨
    (t.2.rest.length ≤ more.length ∧ u.2.rest.length ≤ other.length)

/-- A cut that agrees gives tokens that agree, if their kind does not depend on the text. -/
theorem Agree.kind (kind : Kind) {k : Cut cs} {l : Cut ds} (h : Agree more other k l) :
    TokenAgree more other (kind, k) (kind, l) :=
  h.imp_left fun h => ⟨rfl, h⟩

/-- A mark with a name behind it is the same token in both, or a delimiter in both. -/
theorem Twins.marked (kind : String → Kind) (mark : Char) (h : Twins more other cs ds) :
    TokenAgree more other (marked kind mark cs) (marked kind mark ds) := by
  rw [Css.marked, Css.marked, h.atName]
  split
  · refine h.name.imp_left fun ⟨htaken, hrest⟩ => ⟨?_, htaken, hrest⟩
    exact congrArg (fun taken => kind (String.ofList (decodeName taken))) htaken
  · exact h.nothing.kind _

/-- So is a mark with an equals sign behind it. -/
theorem Twins.comparison (mark : Char) (h : Twins more other cs ds) :
    TokenAgree more other (comparison mark cs) (comparison mark ds) := by
  obtain ⟨cs, ds, rfl, rfl, hrest⟩ | ⟨hcs, hds⟩ := h.mark_cases ['='] (by decide)
  · exact (hrest.nothing.cons '=').kind _
  · have hplain {cs : List Char} (hcs : ¬ ['='] <+: cs) :
        Css.comparison mark cs = (.delim mark, .nothing cs) := by
      rw [Css.comparison]
      rintro rest rfl
      exact hcs ⟨rest, rfl⟩
    rw [hplain hcs, hplain hds]
    exact h.nothing.kind _

/-- Whether a text begins, after blanks, with a quote. -/
def atQuote (cs : List Char) : Bool :=
  let first := (Cut.span isAsciiBlank cs).rest.head?
  first == some '"' || first == some '\''

/-- An address without quotes: its blanks, and the body behind them. -/
theorem url?_eq (cs : List Char) :
    url? cs = if atQuote cs then none
      else some ((Cut.span isAsciiBlank cs).andThen (urlBody (Cut.span isAsciiBlank cs).rest)) := by
  rw [url?, atQuote]
  split
  · rename_i rest hrest
    rw [if_pos (by rw [hrest]; rfl)]
  · rename_i rest hrest
    rw [if_pos (by rw [hrest]; rfl)]
  · rename_i hdouble hsingle
    rw [if_neg]
    rw [Bool.or_eq_true, beq_iff_eq, beq_iff_eq, List.head?_eq_some_iff, List.head?_eq_some_iff]
    rintro (⟨rest, hrest⟩ | ⟨rest, hrest⟩)
    · exact hdouble rest hrest
    · exact hsingle rest hrest

/-- What the bracket behind a name makes of it, and what is taken behind the bracket. -/
def functionOf (text : String) (cs : List Char) : Kind × Cut cs :=
  if lower text == "url" && !atQuote cs then
    (.url, (Cut.span isAsciiBlank cs).andThen (urlBody (Cut.span isAsciiBlank cs).rest))
  else (.function text, .nothing cs)

/-- Whether a name with a bracket is a function or an address is settled before the semicolon. -/
theorem Twins.functionOf (text : String) (h : Twins more other cs ds) :
    TokenAgree more other (functionOf text cs) (functionOf text ds) := by
  have hblanks := h.span (p := isAsciiBlank) rfl
  have hquote : atQuote cs = atQuote ds := by rw [atQuote, atQuote, hblanks.2.head?]
  rw [Css.functionOf, Css.functionOf, hquote]
  split
  · have hagree : Agree more other _ _ := .inl hblanks
    exact (hagree.andThen Css.urlBody Twins.urlBody).kind _
  · exact h.nothing.kind _

/-- What is taken of a name behind its first character. -/
def nameTail (c : Char) (cs : List Char) : Cut cs :=
  if c == '\\' then (escape cs).andThen (name (escape cs).rest) else name cs

/-- The rest of a name is the same in both. -/
theorem Twins.nameTail (c : Char) (h : Twins more other cs ds) :
    Agree more other (nameTail c cs) (nameTail c ds) := by
  rw [Css.nameTail, Css.nameTail]
  split
  · exact h.escape.andThen Css.name Twins.name
  · exact h.name

/-- The same, when the name and its bracket are taken first. -/
theorem functionOf_andThen {cs rest : List Char} (text : String) (opened : Cut cs)
    (h : opened.rest = rest) :
    let token : Kind × Cut cs :=
      if lower text == "url" then
        match url? opened.rest with
        | some body => (.url, opened.andThen body)
        | none => (.function text, opened)
      else (.function text, opened)
    token.1 = (functionOf text rest).1 ∧
      token.2.taken = opened.taken ++ (functionOf text rest).2.taken ∧
      token.2.rest = (functionOf text rest).2.rest := by
  subst h
  dsimp only
  rw [functionOf, url?_eq]
  cases lower text == "url" <;> cases atQuote opened.rest <;>
    exact ⟨rfl, by simp [Cut.andThen, Cut.nothing], rfl⟩

/-- A name with a bracket behind it is a function or an address. -/
theorem identLike_of_bracket {c : Char} {cs rest : List Char}
    (h : (nameTail c cs).rest = '(' :: rest) :
    (identLike c cs).1 =
      (functionOf (String.ofList (decodeName (c :: (nameTail c cs).taken))) rest).1 ∧
    (identLike c cs).2.taken = (nameTail c cs).taken ++ '(' ::
      (functionOf (String.ofList (decodeName (c :: (nameTail c cs).taken))) rest).2.taken ∧
    (identLike c cs).2.rest =
      (functionOf (String.ofList (decodeName (c :: (nameTail c cs).taken))) rest).2.rest := by
  -- The bracket is cut along an equation, which the cut carries with it.
  have hcast {ds : List Char} (hds : ds = '(' :: rest) :
      (hds ▸ Cut.cons '(' (.nothing rest) : Cut ds).taken = ['('] ∧
        (hds ▸ Cut.cons '(' (.nothing rest) : Cut ds).rest = rest := by
    subst hds
    exact ⟨rfl, rfl⟩
  unfold identLike
  dsimp only
  split
  · rename_i after hafter
    obtain rfl : after = rest := (List.cons.inj (hafter.symm.trans h)).2
    have hopened := functionOf_andThen
      (String.ofList (decodeName (c :: (nameTail c cs).taken)))
      ((nameTail c cs).andThen (hafter ▸ .cons '(' (.nothing after))) (hcast hafter).2
    refine ⟨hopened.1, hopened.2.1.trans ?_, hopened.2.2⟩
    show ((nameTail c cs).taken ++ _) ++ _ = _
    rw [(hcast hafter).1, List.append_assoc, List.singleton_append]
  · rename_i hnot
    exact absurd h (hnot rest)

/-- A name without one is an identifier. -/
theorem identLike_of_not_bracket {c : Char} {cs : List Char}
    (h : ¬ ['('] <+: (nameTail c cs).rest) :
    identLike c cs =
      (.ident (String.ofList (decodeName (c :: (nameTail c cs).taken))), nameTail c cs) := by
  unfold identLike
  dsimp only
  split
  · rename_i rest hrest
    exact absurd ⟨rest, hrest.symm⟩ h
  · rfl

/-- A name takes at least its own characters, whatever it turns out to be. -/
theorem length_rest_identLike_le (c : Char) (cs : List Char) :
    (identLike c cs).2.rest.length ≤ (nameTail c cs).rest.length := by
  by_cases hbracket : ['('] <+: (nameTail c cs).rest
  · obtain ⟨rest, hrest⟩ := hbracket
    rw [(identLike_of_bracket hrest.symm).2.2, ← hrest]
    exact (Cut.length_rest_le _).trans (Nat.le_succ _)
  · rw [identLike_of_not_bracket hbracket]

/-- A name is read as the same kind of token from both texts. -/
theorem Twins.identLike (c : Char) (h : Twins more other cs ds) :
    TokenAgree more other (identLike c cs) (identLike c ds) := by
  obtain ⟨htaken, htail⟩ | ⟨hcs, hds⟩ := h.nameTail c
  · -- The names are the same. What they are depends on the bracket behind them.
    obtain ⟨cs', ds', hcs, hds, hrest⟩ | ⟨hcs, hds⟩ := htail.mark_cases ['('] (by decide)
    · rw [List.singleton_append] at hcs hds
      obtain ⟨hkind, hwhole, hleft⟩ := identLike_of_bracket hcs
      obtain ⟨hkind', hwhole', hleft'⟩ := identLike_of_bracket hds
      rw [← htaken] at hkind' hwhole' hleft'
      rw [TokenAgree, hkind, hkind', hwhole, hwhole', hleft, hleft']
      exact (hrest.functionOf _).imp_left fun ⟨hkind, htaken, hrest⟩ =>
        ⟨hkind, by rw [htaken], hrest⟩
    · rw [identLike_of_not_bracket hcs, identLike_of_not_bracket hds, htaken]
      exact .inl ⟨rfl, htaken, htail⟩
  · exact .inr
      ⟨(length_rest_identLike_le c cs).trans hcs, (length_rest_identLike_le c ds).trans hds⟩

/-- The law of this module for a single token, one case for each way in which a token begins. -/
theorem Twins.readToken (c : Char) (h : Twins more other cs ds) :
    TokenAgree more other (readToken c cs) (readToken c ds) := by
  unfold Css.readToken
  rw [h.startsNumber c]
  split
  · have hblanks : Agree more other _ _ := .inl (h.span (p := isAsciiBlank) rfl)
    exact hblanks.kind _
  split
  · exact (h.string c).kind _
  split
  · exact (h.number c).kind _
  split
  · rw [h.atName, h.atDigit, h.head?]
    split
    · exact h.name.kind _
    · exact h.nothing.kind _
  · exact h.marked _ _
  · exact h.comparison _
  · exact h.comparison _
  · exact h.comparison _
  · exact h.comparison _
  · exact h.comparison _
  · exact h.nothing.kind _
  · exact h.nothing.kind _
  · exact h.nothing.kind _
  · exact h.nothing.kind _
  · exact h.nothing.kind _
  · exact h.nothing.kind _
  · exact h.nothing.kind _
  · exact h.nothing.kind _
  · obtain ⟨cs, ds, rfl, rfl, hrest⟩ | ⟨hcs, hds⟩ := h.mark_cases ['*'] (by decide)
    · exact (hrest.comment.cons '*').kind _
    · split
      · exact absurd ⟨_, rfl⟩ hcs
      split
      · exact absurd ⟨_, rfl⟩ hds
      · exact h.nothing.kind _
  · obtain ⟨cs, ds, rfl, rfl, hrest⟩ | ⟨hcs, hds⟩ := h.mark_cases ['!', '-', '-'] (by decide)
    · exact (((hrest.nothing.cons '-').cons '-').cons '!').kind _
    · split
      · exact absurd ⟨_, rfl⟩ hcs
      split
      · exact absurd ⟨_, rfl⟩ hds
      · exact h.nothing.kind _
  · obtain ⟨cs, ds, rfl, rfl, hrest⟩ | ⟨hcs, hds⟩ := h.mark_cases ['-', '>'] (by decide)
    · exact ((hrest.nothing.cons '>').cons '-').kind _
    · split
      · exact absurd ⟨_, rfl⟩ hcs
      rw [(h.cons '-').atName]
      split
      · rename_i hat
        split
        · exact absurd ⟨_, rfl⟩ hds
        · rw [if_pos hat]
          exact h.identLike '-'
      · rename_i hat
        split
        · exact absurd ⟨_, rfl⟩ hds
        · rw [if_neg hat]
          exact h.nothing.kind _
  · rw [(h.cons _).atName]
    split
    · exact h.identLike _
    · exact h.nothing.kind _

/-! ### Tokens of a text with a semicolon -/

/-- The semicolon as a token. -/
def semicolon : Token :=
  { kind := .semicolon, source := [';'] }

/-- The tokens of a text are the first one and those of the text that it leaves. -/
theorem readTokens_cons (c : Char) (cs : List Char) :
    readTokens (c :: cs) =
      { kind := (readToken c cs).1, source := c :: (readToken c cs).2.taken } ::
        readTokens (readToken c cs).2.rest := by
  rw [readTokens]

/-- A semicolon at the front is a token of its own. -/
theorem readTokens_semicolon (cs : List Char) :
    readTokens (';' :: cs) = semicolon :: readTokens cs :=
  readTokens_cons ';' cs

/-- What follows a semicolon that is a token may be replaced. It is read as on its own. -/
theorem readTokens_replace {front more : List Char} {tokens after : List Token}
    (h : readTokens (front ++ ';' :: more) = tokens ++ semicolon :: after)
    (hsource : tokens.flatMap Token.source = front) (other : List Char) :
    readTokens (front ++ ';' :: other) = tokens ++ semicolon :: readTokens other := by
  induction tokens generalizing front with
  | nil =>
    obtain rfl : front = [] := hsource.symm
    exact readTokens_semicolon other
  | cons t tokens ih =>
    cases front with
    | nil =>
      rw [List.nil_append, readTokens_semicolon, List.cons_append, List.cons.injEq] at h
      obtain ⟨rfl, -⟩ := h
      simp [semicolon] at hsource
    | cons c rest =>
      rw [List.cons_append, readTokens_cons, List.cons_append, List.cons.injEq] at h
      obtain ⟨rfl, h⟩ := h
      rw [List.flatMap_cons, List.cons_append, List.cons.injEq] at hsource
      -- What the first token leaves is settled by what it takes.
      have hrest {text : List Char} (k : Cut (rest ++ text))
          (htaken : k.taken = (readToken c (rest ++ ';' :: more)).2.taken) :
          k.rest = tokens.flatMap Token.source ++ text := by
        have hwhole : k.taken ++ k.rest = k.taken ++ (tokens.flatMap Token.source ++ text) := by
          rw [k.whole, htaken, ← List.append_assoc, hsource.2]
        exact List.append_cancel_left hwhole
      rw [hrest _ rfl] at h
      obtain ⟨hkind, htaken, -⟩ | ⟨hlength, -⟩ := (twins_append rest more other).readToken c
      · rw [List.cons_append, readTokens_cons, hrest _ htaken.symm, ih h rfl, ← hkind, ← htaken]
        rfl
      · -- The token would have taken the semicolon.
        rw [hrest _ rfl, List.length_append, List.length_cons] at hlength
        omega

end EmailMarkup.Css
