import EmailMarkup.Proofs.Selector.Grammar

/-!
# What can be negated

The argument of a negation goes to the first closing bracket, and that bracket may belong to the
argument. So a compound can be negated exactly if its text has no closing bracket: then the negation
is read as the negation of the compound, and otherwise it is refused
(`negation_read_or_refused`).

A text with a closing bracket is refused because nothing that ends before the bracket is a compound.
If it were one, the bracket would be left over when the whole text is read
(`not_reads_of_reads_before`), but the whole text was read to its end. Blanks before the bracket are
dropped from the argument, and in the whole text a name may run into them, since some blanks are
characters of names. Still the name ends at the bracket (`ReadsSimple.loose`).
-/

set_option autoImplicit false

namespace EmailMarkup.Selector

open EmailMarkup.Text

/-! ### Selectors of one compound -/

/-- What comes of the compounds of a selector: the first one is the last too, or there are more
behind it. -/
theorem readParts_cases {source : String} {before : List (Compound × Combinator)}
    {cs : List Char} {s : Selector} (h : readParts source before cs = .ok s) :
    ∃ compound rest, ReadsCompound cs compound rest ∧ compound ≠ [] ∧
      (trimLeft rest = [] ∧ s = { subject := compound, context := before.map Prod.swap } ∨
        ∃ k more, more.length < cs.length ∧
          readParts source ((compound, k) :: before) more = .ok s) := by
  rw [readParts_eq] at h
  obtain ⟨⟨compound, rest⟩, hcompound, h⟩ := exists_of_bind h
  have hreads := (readCompound_eq_ok_iff source).mp hcompound
  have hrest := hreads.suffix.length_le
  unfold readFurther at h
  simp only at h
  split at h
  · cases h
  · rename_i hne
    refine ⟨compound, rest, hreads, by simpa using hne, ?_⟩
    have htrim := (trimLeft_suffix rest).length_le
    split at h
    · rename_i hblank
      cases h
      exact .inl ⟨hblank, rfl⟩
    · rename_i c tail htail
      have htail' := (trimLeft_suffix tail).length_le
      rw [htail, List.length_cons] at htrim
      right
      split at h
      · exact ⟨_, _, by omega, h⟩
      · split at h
        · rename_i hspace
          rw [List.length_cons] at hspace
          exact ⟨_, _, by rw [List.length_cons]; omega, h⟩
        · cases h

/-- The compounds that were read before stay in the selector. -/
theorem exists_context_append {source : String} {before : List (Compound × Combinator)}
    {cs : List Char} {s : Selector} (h : readParts source before cs = .ok s) :
    ∃ more, s.context = more ++ before.map Prod.swap := by
  induction hlength : cs.length using Nat.strong_induction_on generalizing cs before with
  | _ length ih =>
  subst hlength
  obtain ⟨compound, rest, -, -, ⟨-, rfl⟩ | ⟨k, behind, hlt, hmore⟩⟩ := readParts_cases h
  · exact ⟨[], rfl⟩
  · obtain ⟨more, heq⟩ := ih behind.length hlt hmore rfl
    refine ⟨more ++ [(k, compound)], ?_⟩
    rw [heq, List.map_cons, List.append_assoc]
    rfl

/-- A text is a selector of one compound if it is read as that compound to its end. -/
theorem read_eq_single_iff {x : String} {compound : Compound} :
    read x = .ok { subject := compound, context := [] } ↔
      compound ≠ [] ∧ ReadsCompound (trimChars x.toList) compound [] := by
  constructor
  · intro h
    obtain ⟨other, rest, hreads, hne, ⟨hblank, heq⟩ | ⟨k, behind, -, hmore⟩⟩ := readParts_cases h
    · cases heq
      have hrest := (unpadded_trimChars x.toList).eq_nil_of_suffix hreads.suffix hblank
      exact ⟨hne, hrest ▸ hreads⟩
    · obtain ⟨more, hcontext⟩ := exists_context_append hmore
      exact absurd hcontext (by simp)
  · rintro ⟨hne, hreads⟩
    show readParts _ [] (trimChars x.toList) = _
    rw [readParts_eq, (readCompound_eq_ok_iff _).mpr hreads]
    show (if compound.isEmpty = true then _ else _) = _
    rw [if_neg (by simpa using hne)]
    rfl

/-! ### A closing bracket behind a compound -/

/-- What begins with a closing bracket, perhaps behind blanks. -/
def Loose (cs : List Char) : Prop :=
  ∃ blanks next, cs = blanks ++ ')' :: next ∧ ∀ c ∈ blanks, isBlank c = true

/-- A loose end begins no condition and no argument. -/
theorem Loose.head {cs : List Char} (h : Loose cs) :
    ∀ c ∈ cs.head?, startsSimple c = false ∧ c ≠ '(' := by
  obtain ⟨blanks, next, rfl, hblanks⟩ := h
  intro c hc
  cases blanks with
  | nil =>
    cases hc
    decide
  | cons b blanks =>
    cases hc
    have hblank := hblanks c List.mem_cons_self
    constructor
    · rw [Bool.eq_false_iff]
      intro hstart
      rw [(of_startsSimple hstart).2.1] at hblank
      cases hblank
    · rintro rfl
      exact absurd hblank (by decide)

theorem Loose.ne_nil {cs : List Char} (h : Loose cs) : cs ≠ [] := by
  obtain ⟨blanks, next, rfl, -⟩ := h
  simp

/-- A name may run into blanks, but not over the bracket. -/
theorem Loose.afterIdent {cs : List Char} (h : Loose cs) : Loose (afterIdent cs) := by
  obtain ⟨blanks, next, rfl, hblanks⟩ := h
  refine ⟨blanks.dropWhile isIdentChar, next, ?_, ?_⟩
  · refine (span_append fun _ c hc => ?_).2
    cases hc
    rfl
  · intro c hc
    exact hblanks c ((List.dropWhile_sublist _).mem hc)

theorem Loose.not_reads {cs : List Char} (h : Loose cs) (simples : List Simple) :
    ¬ ReadsSimples cs simples [] := by
  intro hreads
  cases hreads with
  | done stop => exact h.ne_nil rfl
  | more first others =>
    cases cs with
    | nil => exact h.ne_nil rfl
    | cons c cs =>
      have hstart := (h.head c rfl).1
      rw [first.startsSimple] at hstart
      cases hstart

theorem Loose.not_readArgument {cs argument rest : List Char} (h : Loose cs) :
    readArgument cs ≠ .ok (argument, rest) := by
  intro hargument
  obtain ⟨inner, rfl, -, -⟩ := readArgument_eq_ok_iff.mp hargument
  exact (h.head '(' rfl).2 rfl

/-- Before a loose end a condition is read as it is without it. Or its name runs into the loose end,
and what is left is loose again. -/
theorem ReadsSimple.loose {cs rest left tail : List Char} {s t : Simple}
    (h : ReadsSimple cs s rest) (htail : Loose tail) (hother : ReadsSimple (cs ++ tail) t left) :
    left = rest ++ tail ∨ Loose left := by
  rcases h.bracketed_or_named with hall | ⟨c, name, rfl, hbracket, rfl, hnamed⟩
  · exact .inl ((hall tail).unique hother).2.symm
  · -- Only a name that goes to the end of the text can run on.
    by_cases hend : Selector.afterIdent name = []
    · have hloose : Loose (Selector.afterIdent (name ++ tail)) := by
        rw [afterIdent_append_of_nil hend]
        exact htail.afterIdent
      right
      cases hother with
      | id | className => exact hloose
      | test => exact absurd rfl hbracket
      | structural => exact hloose
      | nthChild single name bracketed | negation single name bracketed =>
        exact absurd bracketed hloose.not_readArgument
    · exact .inl ((hnamed tail fun hnil => absurd hnil hend).unique hother).2.symm

theorem ReadsSimples.not_reads_loose {cs rest tail : List Char} {simples others : List Simple}
    (h : ReadsSimples cs simples rest) (hrest : rest = []) (htail : Loose tail) :
    ¬ ReadsSimples (cs ++ tail) others [] := by
  induction h generalizing others with
  | done stop =>
    rw [hrest]
    exact htail.not_reads others
  | more first behind ih =>
    intro hothers
    generalize hwhole : _ ++ tail = whole at hothers
    cases hothers with
    | done stop =>
      obtain ⟨-, rfl⟩ := List.append_eq_nil_iff.mp hwhole
      exact htail.ne_nil rfl
    | more first' behind' =>
      subst hwhole
      rcases first.loose htail first' with rfl | hloose
      · exact ih hrest behind'
      · exact hloose.not_reads _ behind'

/-- Before a loose end a type is read as it is without it, or its name runs into the loose end. -/
theorem readHead_loose {cs tail : List Char} (hcs : cs ≠ []) (htail : Loose tail) :
    (readHead (cs ++ tail)).2 = (readHead cs).2 ++ tail ∨ Loose (readHead (cs ++ tail)).2 := by
  cases cs with
  | nil => exact absurd rfl hcs
  | cons c cs =>
    simp only [readHead, List.cons_append]
    split
    · exact .inl rfl
    · split
      · by_cases hend : Selector.afterIdent (c :: cs) = []
        · right
          have hafter := afterIdent_append_of_nil hend tail
          rw [List.cons_append] at hafter
          rw [hafter]
          exact htail.afterIdent
        · left
          exact (ident_append (c :: cs) tail fun hnil => absurd hnil hend).2
      · exact .inl rfl

theorem ReadsCompound.not_reads_loose {cs tail : List Char} {compound other : Compound}
    (h : ReadsCompound cs other []) (hne : other ≠ []) (htail : Loose tail) :
    ¬ ReadsCompound (cs ++ tail) compound [] := by
  rintro ⟨others, hothers, -⟩
  have hcs := h.ne_nil hne
  obtain ⟨simples, hsimples, -⟩ := h
  rcases readHead_loose hcs htail with heq | hloose
  · rw [heq] at hothers
    exact hsimples.not_reads_loose rfl htail hothers
  · exact hloose.not_reads others hothers

/-- If a compound ends before a closing bracket of a text, the text is not read to its end. -/
theorem not_reads_of_reads_before {inner next : List Char} {compound other : Compound}
    (hne : other ≠ []) (hinner : ReadsCompound (trimChars inner) other []) :
    ¬ ReadsCompound (trimChars (inner ++ ')' :: next)) compound [] := by
  have hstart : trimLeft inner ≠ [] := by
    intro hnil
    refine hinner.ne_nil hne ?_
    rw [trimChars, hnil]
    rfl
  obtain ⟨blanks, hsplit, hblanks⟩ := exists_blanks_of_trimRight (trimLeft inner)
  have hclose : trimRight (')' :: next) = ')' :: trimRight next := trimRight_cons (by decide) next
  have htrim : trimChars (inner ++ ')' :: next) =
      trimChars inner ++ (blanks ++ ')' :: trimRight next) := by
    rw [trimChars, trimLeft_append_of_ne_nil hstart,
      trimRight_append_of_ne_nil _ (by rw [hclose]; exact List.cons_ne_nil _ _), hclose, trimChars,
      ← List.append_assoc, ← hsplit]
  rw [htrim]
  exact hinner.not_reads_loose hne ⟨blanks, _, rfl, hblanks⟩

/-! ### Negations -/

/-- The name of a negation ends before its bracket. -/
theorem ident_negation (x : List Char) :
    ident ("not".toList ++ '(' :: x) = "not" ∧
      afterIdent ("not".toList ++ '(' :: x) = '(' :: x := by
  refine ident_of_name (List.all_eq_true.mp (by decide)) ?_
  intro c hc
  cases hc
  decide

theorem unpadded_negation (x : List Char) :
    Unpadded (':' :: ("not".toList ++ '(' :: (x ++ [')']))) := by
  have hclosed : "not".toList ++ '(' :: (x ++ [')']) = ("not".toList ++ '(' :: x) ++ [')'] := by
    rw [List.append_assoc, List.cons_append]
  rw [hclosed]
  exact unpadded_bracketed (by decide) (by decide) _

/-- A negation is read from its name up to the end of its argument. -/
theorem reads_negation {x : List Char} {compound : Compound} (hne : compound ≠ [])
    (hreads : ReadsCompound (trimChars x) compound []) (hx : ')' ∉ x) :
    ReadsSimple (':' :: ("not".toList ++ '(' :: (x ++ [')']))) (.negation compound) [] := by
  obtain ⟨hident, hafter⟩ := ident_negation (x ++ [')'])
  have hargument : readArgument (afterIdent ("not".toList ++ '(' :: (x ++ [')']))) =
      .ok (trimChars x, []) := by
    rw [hafter]
    exact readArgument_eq_ok_iff.mpr ⟨x, rfl, hx, rfl⟩
  refine .negation (by simp) ?_ hargument ((readCompound_eq_ok_iff _).mpr hreads) hne
  rw [hident]
  decide

/-- What is read as a negation has a compound up to the first closing bracket. -/
theorem exists_of_reads_negation {x rest : List Char} {compound : Compound}
    (h : ReadsCompound (':' :: ("not".toList ++ '(' :: x)) compound rest) :
    ∃ inner next other, x = inner ++ ')' :: next ∧ ')' ∉ inner ∧ other ≠ [] ∧
      ReadsCompound (trimChars inner) other [] := by
  obtain ⟨hident, hafter⟩ := ident_negation x
  obtain ⟨simples, hsimples, -⟩ := h
  rw [readHead_of_startsSimple (by decide)] at hsimples
  cases hsimples with
  | done stop => exact absurd (stop ':' rfl) (by decide)
  | more first others =>
    cases first with
    | structural single name =>
      rw [hident] at name
      cases name
    | nthChild single name bracketed formula =>
      rw [hident] at name
      exact absurd name (by decide)
    | negation single name bracketed whole ne =>
      rw [hafter] at bracketed
      obtain ⟨inner, hinner, hnotMem, rfl⟩ := readArgument_eq_ok_iff.mp bracketed
      exact ⟨inner, _, _, (List.cons.inj hinner).2, hnotMem, ne,
        (readCompound_eq_ok_iff _).mp whole⟩

/-- A compound without a closing bracket in its text can be negated. Any other is refused. -/
theorem negation_read_or_refused {x : String} {compound : Compound}
    (h : read x = .ok { subject := compound, context := [] }) :
    (')' ∉ x.toList →
      read (":not(" ++ x ++ ")") = .ok { subject := [.negation compound], context := [] }) ∧
    (')' ∈ x.toList → ∃ fault, read (":not(" ++ x ++ ")") = .error fault) := by
  obtain ⟨hne, hreads⟩ := read_eq_single_iff.mp h
  have htext : (":not(" ++ x ++ ")").toList =
      ':' :: ("not".toList ++ '(' :: (x.toList ++ [')'])) := by
    simp
  have htrim : trimChars (":not(" ++ x ++ ")").toList =
      ':' :: ("not".toList ++ '(' :: (x.toList ++ [')'])) := by
    rw [htext]
    exact (unpadded_negation x.toList).trimChars_eq
  constructor
  · intro hx
    refine read_eq_single_iff.mpr ⟨List.cons_ne_nil _ _, ?_⟩
    rw [htrim]
    exact (reads_negation hne hreads hx).alone
  · intro hx
    rw [exists_error_iff]
    rintro ⟨s, hs⟩
    obtain ⟨whole, rest, hwhole, -⟩ := readParts_cases hs
    rw [htrim] at hwhole
    obtain ⟨inner, next, other, hsplit, hinner, hother, hbefore⟩ := exists_of_reads_negation hwhole
    -- The first closing bracket is one of the argument, not the one behind it.
    rcases List.append_eq_append_iff.mp hsplit with ⟨more, rfl, -⟩ | ⟨more, hx', hmore⟩
    · exact hinner (List.mem_append_left more hx)
    · cases more with
      | nil =>
        rw [hx', List.append_nil] at hx
        exact hinner hx
      | cons c more =>
        obtain ⟨rfl, -⟩ := List.cons.inj hmore
        rw [hx'] at hreads
        exact not_reads_of_reads_before hother hbefore hreads

/-- A value with an opening bracket can be negated, a position cannot. -/
theorem position_not_negated :
    read (":not(" ++ "p[title='a (b']" ++ ")") =
      .ok { subject := [.negation [.type "p", .attribute "title" (.equals "a (b")]]
            context := [] } ∧
    ∃ fault, read (":not(" ++ ":nth-child(2)" ++ ")") = .error fault := by
  have hvalue : read "p[title='a (b']" =
      .ok { subject := [.type "p", .attribute "title" (.equals "a (b")], context := [] } := by
    with_unfolding_all rfl
  have hposition : read ":nth-child(2)" =
      .ok { subject := [.structural (.nthChild 0 2)], context := [] } := by
    with_unfolding_all rfl
  exact ⟨(negation_read_or_refused hvalue).1 (by decide),
    (negation_read_or_refused hposition).2 (by decide)⟩

/-- A position is a selector of one compound, but its negation is cut short at the bracket of the
position. -/
theorem negated_position_cut_short :
    read ":nth-child(2)" = .ok { subject := [.structural (.nthChild 0 2)], context := [] } ∧
    read ":not(:nth-child(2))" = .error (.invalid ":nth-child(2" (.expected ')')) := by
  constructor
  · with_unfolding_all rfl
  · with_unfolding_all rfl

end EmailMarkup.Selector
