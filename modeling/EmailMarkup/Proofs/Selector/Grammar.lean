import EmailMarkup.Proofs.Selector.Reading

/-!
# What is read as a selector

Which text is read as which compound can be said without the selector that faults are reported for:
`ReadsSimple`, `ReadsSimples` and `ReadsCompound` relate a text, what is read off its front, and
what is left. They are what the readers do when they succeed (`readSimple?_eq_some_iff`,
`readSimples_eq_ok_iff`, `readCompound_eq_ok_iff`).

What is left is an end of the text. More text behind it is left too and changes nothing, as long as
it could not have been read as part of what came before (`ReadsSimple.append`,
`ReadsCompound.append`).
-/

set_option autoImplicit false

namespace EmailMarkup.Selector

open EmailMarkup.Text

variable {s : Simple} {argument next : List Char} {source value : String}

/-! ### Parts of conditions -/

section
variable {cs rest tail : List Char}

/-- A name is read as far as it goes. -/
theorem ident_of_name {name rest : List Char} (hname : ∀ c ∈ name, isIdentChar c = true)
    (hrest : ∀ c ∈ rest.head?, isIdentChar c = false) :
    ident (name ++ rest) = String.ofList name ∧ afterIdent (name ++ rest) = rest := by
  obtain ⟨htake, hdrop⟩ := span_of_forall hname hrest
  exact ⟨congrArg String.ofList htake, hdrop⟩

/-- A name that ends in a text does not go on behind the text. One that goes to the end does not go
on either, if what is behind begins with no character of names. -/
theorem ident_append (cs tail : List Char)
    (htail : afterIdent cs = [] → ∀ c ∈ tail.head?, isIdentChar c = false) :
    ident (cs ++ tail) = ident cs ∧ afterIdent (cs ++ tail) = afterIdent cs ++ tail := by
  obtain ⟨htake, hdrop⟩ := span_append htail
  exact ⟨congrArg String.ofList htake, hdrop⟩

/-- A name that goes to the end of a text goes on with what is behind the text. -/
theorem afterIdent_append_of_nil (hcs : afterIdent cs = []) (tail : List Char) :
    afterIdent (cs ++ tail) = afterIdent tail :=
  List.dropWhile_append_of_pos (List.dropWhile_eq_nil_iff.mp hcs)

/-- A comparison is a mark, whatever follows it. -/
theorem exists_of_readComparison {test : String → ValueTest}
    (h : readComparison cs = .ok (test, rest)) :
    ∃ mark, cs = mark ++ rest ∧ ∀ more, readComparison (mark ++ more) = .ok (test, more) := by
  have hsecond : ∀ (make : String → ValueTest) (ds : List Char),
      readComparison.second make ds = .ok (test, rest) → make = test ∧ ds = '=' :: rest := by
    intro make ds h
    unfold readComparison.second at h
    split at h
    · cases h
      exact ⟨rfl, rfl⟩
    · cases h
  unfold readComparison at h
  split at h
  · cases h
    exact ⟨['='], rfl, fun _ => rfl⟩
  · obtain ⟨rfl, rfl⟩ := hsecond _ _ h
    exact ⟨['~', '='], rfl, fun _ => rfl⟩
  · obtain ⟨rfl, rfl⟩ := hsecond _ _ h
    exact ⟨['|', '='], rfl, fun _ => rfl⟩
  · obtain ⟨rfl, rfl⟩ := hsecond _ _ h
    exact ⟨['^', '='], rfl, fun _ => rfl⟩
  · obtain ⟨rfl, rfl⟩ := hsecond _ _ h
    exact ⟨['$', '='], rfl, fun _ => rfl⟩
  · obtain ⟨rfl, rfl⟩ := hsecond _ _ h
    exact ⟨['*', '='], rfl, fun _ => rfl⟩
  · cases h

/-- A value in quotes goes to the next quote of the same kind. -/
theorem readTestValue_quoted {quote : Char} (hquote : quote = '"' ∨ quote = '\'')
    {value : List Char} (hvalue : quote ∉ value) (rest : List Char) :
    readTestValue (quote :: (value ++ quote :: rest)) = .ok (String.ofList value, rest) := by
  have hif : (quote == '"' || quote == '\'') = true := by simpa using hquote
  simp only [readTestValue, hif, if_true, dropWhile_bne_append hvalue,
    takeWhile_bne_append hvalue]

/-- A value that begins without a quote is the identifier at the front. -/
theorem readTestValue_bare (h : ∀ c ∈ cs.head?, c ≠ '"' ∧ c ≠ '\'') :
    readTestValue cs = .ok (ident cs, afterIdent cs) := by
  cases cs with
  | nil => rfl
  | cons c cs =>
    have hif : (c == '"' || c == '\'') = false := by simpa using h c rfl
    simp only [readTestValue, hif, Bool.false_eq_true, if_false]

/-- A value is either what stands between two equal quotes, with no such quote inside, or an
identifier. Nothing else is read as one. -/
theorem of_readTestValue (h : readTestValue cs = .ok (value, rest)) :
    (∃ quote, (quote = '"' ∨ quote = '\'') ∧ quote ∉ value.toList ∧
      cs = quote :: (value.toList ++ quote :: rest)) ∨
    (∀ c ∈ cs.head?, c ≠ '"' ∧ c ≠ '\'') ∧ value = ident cs ∧ rest = afterIdent cs := by
  cases cs with
  | nil =>
    cases h
    exact .inr ⟨by simp, rfl, rfl⟩
  | cons c cs =>
    unfold readTestValue at h
    simp only at h
    split at h
    · rename_i hquote
      split at h
      · rename_i hdrop
        cases h
        obtain ⟨heq, hnotMem⟩ := eq_append_of_dropWhile_bne hdrop
        refine .inl ⟨c, by simpa using hquote, ?_, ?_⟩
        · rwa [String.toList_ofList]
        · rw [String.toList_ofList, ← heq]
      · cases h
    · rename_i hquote
      cases h
      exact .inr ⟨fun d hd => by cases hd; simpa using hquote, rfl, rfl⟩

/-- Reading an identifier leaves an end of the text. -/
theorem afterIdent_suffix (cs : List Char) : afterIdent cs <:+ cs :=
  List.dropWhile_suffix _

/-- Reading a value leaves an end of the text. -/
theorem readTestValue_suffix (h : readTestValue cs = .ok (value, rest)) : rest <:+ cs := by
  rcases of_readTestValue h with ⟨quote, -, -, rfl⟩ | ⟨-, -, rfl⟩
  · exact (List.suffix_cons _ _).trans ((List.suffix_append _ _).trans (List.suffix_cons _ _))
  · exact afterIdent_suffix cs

/-- Text behind what is left does not change the value. Something has to be left: a bare value that
reaches the end would go on in the text behind. -/
theorem readTestValue_append (h : readTestValue cs = .ok (value, rest)) (hrest : rest ≠ [])
    (tail : List Char) : readTestValue (cs ++ tail) = .ok (value, rest ++ tail) := by
  rcases of_readTestValue h with ⟨quote, hquote, hvalue, rfl⟩ | ⟨hhead, rfl, rfl⟩
  · have hread := readTestValue_quoted hquote hvalue (rest ++ tail)
    rw [String.ofList_toList] at hread
    rw [← hread]
    simp only [List.cons_append, List.append_assoc]
  · obtain ⟨hident, hafter⟩ := ident_append cs tail fun hnil => absurd hnil hrest
    rw [← hident, ← hafter]
    apply readTestValue_bare
    cases cs with
    | nil => exact absurd rfl hrest
    | cons c cs => exact hhead

/-- An argument goes from its opening bracket to the first closing one. -/
theorem readArgument_eq_ok_iff :
    readArgument cs = .ok (argument, next) ↔
      ∃ inner, cs = '(' :: (inner ++ ')' :: next) ∧ ')' ∉ inner ∧ argument = trimChars inner := by
  constructor
  · intro h
    unfold readArgument at h
    split at h
    · rename_i inner
      split at h
      · rename_i hdrop
        cases h
        obtain ⟨heq, hnotMem⟩ := eq_append_of_dropWhile_bne hdrop
        exact ⟨inner.takeWhile (· != ')'), by rw [← heq], hnotMem, rfl⟩
      · cases h
    · cases h
  · rintro ⟨inner, rfl, hinner, rfl⟩
    simp only [readArgument, dropWhile_bne_append hinner, takeWhile_bne_append hinner]

/-- An argument ends at its bracket, so text behind it does not change it. -/
theorem readArgument_append (tail : List Char) (h : readArgument cs = .ok (argument, next)) :
    readArgument (cs ++ tail) = .ok (argument, next ++ tail) := by
  obtain ⟨inner, rfl, hinner, rfl⟩ := readArgument_eq_ok_iff.mp h
  exact readArgument_eq_ok_iff.mpr ⟨inner, by simp, hinner, rfl⟩

/-- Reading an argument leaves an end of the text. -/
theorem readArgument_suffix (h : readArgument cs = .ok (argument, next)) : next <:+ cs := by
  obtain ⟨inner, rfl, -, -⟩ := readArgument_eq_ok_iff.mp h
  exact (List.suffix_cons _ _).trans ((List.suffix_append _ _).trans (List.suffix_cons _ _))

end

/-! ### Conditions -/

/-- What is read behind the name of an attribute: nothing, or a comparison and a value. -/
inductive ReadsTest : List Char → ValueTest → List Char → Prop where
  | present (rest : List Char) : ReadsTest (']' :: rest) .present rest
  | compared {cs valueText behind rest : List Char} {test : String → ValueTest} {value : String}
      (comparison : readComparison cs = .ok (test, valueText))
      (quoted : readTestValue (trimLeft valueText) = .ok (value, behind))
      (closed : trimLeft behind = ']' :: rest) : ReadsTest cs (test value) rest

/-- What is read as a condition, without regard to the selector that faults are reported for. -/
inductive ReadsSimple : List Char → Simple → List Char → Prop where
  | id {cs : List Char} (name : ident cs ≠ "") :
      ReadsSimple ('#' :: cs) (.id (ident cs)) (afterIdent cs)
  | className {cs : List Char} (name : ident cs ≠ "") :
      ReadsSimple ('.' :: cs) (.className (ident cs)) (afterIdent cs)
  | test {cs rest : List Char} {test : ValueTest} (name : ident (trimLeft cs) ≠ "")
      (value : ReadsTest (trimLeft (afterIdent (trimLeft cs))) test rest) :
      ReadsSimple ('[' :: cs) (.attribute (ident (trimLeft cs)) test) rest
  | structural {cs : List Char} {s : Structural} (single : cs.head? ≠ some ':')
      (name : structuralNames.lookup (lower (ident cs)) = some s) :
      ReadsSimple (':' :: cs) (.structural s) (afterIdent cs)
  | nthChild {cs argument rest : List Char} {a b : Int} (single : cs.head? ≠ some ':')
      (name : lower (ident cs) = "nth-child")
      (bracketed : readArgument (afterIdent cs) = .ok (argument, rest))
      (formula : readNth? argument = some (a, b)) :
      ReadsSimple (':' :: cs) (.structural (.nthChild a b)) rest
  | negation {cs argument rest : List Char} {compound : Compound}
      (single : cs.head? ≠ some ':') (name : lower (ident cs) = "not")
      (bracketed : readArgument (afterIdent cs) = .ok (argument, rest))
      (whole : (readCompound (String.ofList argument) argument).map Read.pair =
        .ok (compound, []))
      (ne : compound ≠ []) : ReadsSimple (':' :: cs) (.negation compound) rest

section
variable {cs rest : List Char}

/-- The reader of tests succeeds on the texts of the grammar only, and with what the grammar says.
-/
theorem readTest_eq_ok_iff (name : String) :
    readTest name cs = .ok (s, rest) ↔
      ∃ test, s = .attribute name test ∧ ReadsTest cs test rest := by
  constructor
  · intro h
    unfold readTest at h
    split at h
    · cases h
      exact ⟨.present, rfl, .present rest⟩
    · obtain ⟨⟨test, valueText⟩, hcomparison, h⟩ := exists_of_bind h
      obtain ⟨⟨value, behind⟩, hvalue, h⟩ := exists_of_bind h
      simp only at h
      split at h
      · rename_i hclosed
        cases h
        exact ⟨test value, rfl, .compared hcomparison hvalue hclosed⟩
      · cases h
  · rintro ⟨test, rfl, h⟩
    cases h with
    | present => rfl
    | compared comparison quoted closed =>
      rw [readTest]
      · simp only [comparison, quoted, closed, bind, Except.bind]
      · rintro next rfl
        cases comparison

/-- What a condition with a colon is read as: one of the names without an argument, or `nth-child`
with a formula. There is no third way to succeed. -/
theorem exists_of_readPseudoClass {name : String}
    (h : (readPseudoClass source name cs).map Read.pair = .ok (s, rest)) :
    (∃ t, structuralNames.lookup name = some t ∧ s = .structural t ∧ rest = cs) ∨
    name = "nth-child" ∧ ∃ argument a b, readArgument cs = .ok (argument, rest) ∧
      readNth? argument = some (a, b) ∧ s = .structural (.nthChild a b) := by
  unfold readPseudoClass at h
  split at h
  · rename_i t hlookup
    cases h
    exact .inl ⟨t, hlookup, rfl, rfl⟩
  · split at h
    · rename_i hname
      split at h
      · cases h
      · rename_i argument next hargument
        split at h
        · rename_i a b hnth
          cases h
          exact .inr ⟨by simpa using hname, argument, a, b, hargument, hnth, rfl⟩
        · cases h
    · split at h
      · cases h
      · cases h

/-- With a formula as its argument, `nth-child` is read as a condition on the position. -/
theorem pair_readPseudoClass_nthChild (source : String) {a b : Int}
    (hargument : readArgument cs = .ok (argument, rest)) (hnth : readNth? argument = some (a, b)) :
    (readPseudoClass source "nth-child" cs).map Read.pair =
      .ok (.structural (.nthChild a b), rest) := by
  have hlookup : structuralNames.lookup "nth-child" = none := by decide
  unfold readPseudoClass
  rw [hlookup]
  simp only [beq_self_eq_true, if_true]
  split
  · rename_i h
    rw [hargument] at h
    cases h
  · rename_i h
    rw [hargument] at h
    cases h
    rw [hnth]
    rfl

/-- Behind a single colon a condition is read by its name. A second colon would name a part of an
element, which is refused. -/
theorem readSimple?_of_readNamed {read : Simple × List Char} (single : cs.head? ≠ some ':')
    (h : readNamed source (lower (ident cs)) (afterIdent cs) = .ok read) :
    readSimple? source (':' :: cs) = .ok (some read) := by
  rw [readSimple?, if_neg (by simpa using single), h]
  rfl

/-- What a negation is read as: its argument is a compound to the last character, with at least one
condition. -/
theorem exists_of_readNegation (h : readNegation source cs = .ok (s, rest)) :
    ∃ argument compound, readArgument cs = .ok (argument, rest) ∧
      (readCompound (String.ofList argument) argument).map Read.pair = .ok (compound, []) ∧
      compound ≠ [] ∧ s = .negation compound := by
  unfold readNegation at h
  split at h
  · cases h
  · rename_i argument next hargument
    obtain ⟨⟨compound, left⟩, hinner, h⟩ := exists_of_bind h
    simp only at h
    split at h
    · cases h
    · rename_i hwhole
      cases h
      simp only [Bool.or_eq_true, Bool.not_eq_true', not_or, Bool.not_eq_true,
        Bool.not_eq_false] at hwhole
      obtain rfl := List.isEmpty_iff.mp hwhole.2
      exact ⟨argument, compound, hargument, hinner, by simpa using hwhole.1, rfl⟩

/-- The reader of single conditions and the grammar agree: it reads a condition exactly where the
grammar has one, and leaves the same rest. -/
theorem readSimple?_eq_some_iff {source : String} {s : Simple} :
    readSimple? source cs = .ok (some (s, rest)) ↔ ReadsSimple cs s rest := by
  constructor
  · intro h
    unfold readSimple? at h
    split at h
    · split at h
      · cases h
      · rename_i hname
        cases h
        exact .id (by simpa using hname)
    · split at h
      · cases h
      · rename_i hname
        cases h
        exact .className (by simpa using hname)
    · rw [pair_readAttribute] at h
      split at h
      · cases h
      · rename_i read hread
        cases h
        split at hread
        · cases hread
        · rename_i hname
          obtain ⟨test, rfl, htest⟩ := (readTest_eq_ok_iff _).mp hread
          exact .test (by simpa using hname) htest
    · split at h
      · cases h
      · rename_i hsingle
        obtain ⟨read, hread, hsome⟩ := exists_of_map h
        cases hsome
        unfold readNamed at hread
        split at hread
        · rename_i hname
          obtain ⟨argument, compound, hargument, hinner, hne, rfl⟩ := exists_of_readNegation hread
          exact .negation (by simpa using hsingle) (by simpa using hname) hargument hinner hne
        · rcases exists_of_readPseudoClass hread with ⟨t, hlookup, rfl, rfl⟩ |
            ⟨hname, argument, a, b, hargument, hnth, rfl⟩
          · exact .structural (by simpa using hsingle) hlookup
          · exact .nthChild (by simpa using hsingle) hname hargument hnth
    · cases h
  · intro h
    cases h with
    | id name | className name => simp [readSimple?, name]
    | @test cs rest test name value =>
      have hread := (readTest_eq_ok_iff (ident (trimLeft cs))).mpr ⟨test, rfl, value⟩
      simp [readSimple?, pair_readAttribute, name, hread]
    | structural single name =>
      have hnot : ∀ (word : String) (s : Structural), structuralNames.lookup word = some s →
          word ≠ "not" := by
        rintro word s hlookup rfl
        cases hlookup
      refine readSimple?_of_readNamed single ?_
      rw [readNamed, if_neg (by simpa using hnot _ _ name), readPseudoClass, name]
      rfl
    | nthChild single name bracketed formula =>
      refine readSimple?_of_readNamed single ?_
      rw [name]
      exact pair_readPseudoClass_nthChild source bracketed formula
    | negation single name bracketed whole ne =>
      refine readSimple?_of_readNamed single ?_
      simp only [name, readNamed, beq_self_eq_true, if_true, readNegation, bracketed, whole]
      exact if_neg (by simpa using ne)

end

/-! ### Compounds -/

/-- Whether a condition other than a type begins with the character. -/
def startsSimple (c : Char) : Bool :=
  c == '#' || c == '.' || c == '[' || c == ':'

/-- What is read as conditions one after the other. -/
inductive ReadsSimples : List Char → List Simple → List Char → Prop where
  | done {cs : List Char} (stop : ∀ c ∈ cs.head?, startsSimple c = false) : ReadsSimples cs [] cs
  | more {cs rest left : List Char} {s : Simple} {simples : List Simple}
      (first : ReadsSimple cs s rest) (others : ReadsSimples rest simples left) :
      ReadsSimples cs (s :: simples) left

/-- What is read as a compound. -/
def ReadsCompound (cs : List Char) (compound : Compound) (rest : List Char) : Prop :=
  ∃ simples, ReadsSimples (readHead cs).2 simples rest ∧
    compound = (readHead cs).1.toList ++ simples

section
variable {cs rest : List Char}

/-- The reader finds no condition, and no fault either, exactly where none could begin. -/
theorem readSimple?_eq_none_iff :
    readSimple? source cs = .ok none ↔ ∀ c ∈ cs.head?, startsSimple c = false := by
  constructor
  · intro h
    unfold readSimple? at h
    split at h
    · split at h
      · cases h
      · cases h
    · split at h
      · cases h
      · cases h
    · split at h
      · cases h
      · cases h
    · split at h
      · cases h
      · obtain ⟨read, -, hsome⟩ := exists_of_map h
        cases hsome
    · rename_i hid hclass hattribute hcolon
      cases cs with
      | nil =>
        intro d hd
        cases hd
      | cons c cs =>
        intro d hd
        cases hd
        have hne : c ≠ '#' ∧ c ≠ '.' ∧ c ≠ '[' ∧ c ≠ ':' :=
          ⟨fun h => hid cs (h ▸ rfl), fun h => hclass cs (h ▸ rfl),
            fun h => hattribute cs (h ▸ rfl), fun h => hcolon cs (h ▸ rfl)⟩
        simp [startsSimple, hne]
  · intro h
    rw [readSimple?]
    all_goals
      rintro rest rfl
      exact absurd (h _ rfl) (by decide)

/-- A condition begins with one of the marks. -/
theorem ReadsSimple.startsSimple {c : Char} {s : Simple} (h : ReadsSimple (c :: cs) s rest) :
    startsSimple c = true := by
  cases h with
  | id name | className name | test name value | structural single name
  | nthChild single name bracketed formula | negation single name bracketed whole ne =>
    rfl

/-- No text is read as two conditions, or with two rests. -/
theorem ReadsSimple.unique {left : List Char} {t : Simple} (h : ReadsSimple cs s rest)
    (hother : ReadsSimple cs t left) : s = t ∧ rest = left := by
  have hread := (@readSimple?_eq_some_iff _ _ "" _).mpr h
  rw [readSimple?_eq_some_iff.mpr hother] at hread
  cases hread
  exact ⟨rfl, rfl⟩

/-- A test leaves an end of the text. -/
theorem ReadsTest.suffix {test : ValueTest} (h : ReadsTest cs test rest) : rest <:+ cs := by
  cases h with
  | present => exact List.suffix_cons _ _
  | @compared _ _ behind _ _ _ comparison quoted closed =>
    obtain ⟨mark, rfl, -⟩ := exists_of_readComparison comparison
    have hbehind := trimLeft_suffix behind
    rw [closed] at hbehind
    exact (List.suffix_cons _ _).trans (hbehind.trans ((readTestValue_suffix quoted).trans
      ((trimLeft_suffix _).trans (List.suffix_append _ _))))

/-- Reading a condition leaves an end of the text behind its first character. -/
theorem ReadsSimple.suffix {c : Char} {s : Simple} (h : ReadsSimple (c :: cs) s rest) :
    rest <:+ cs := by
  cases h with
  | id name | className name => exact afterIdent_suffix _
  | test name value =>
    exact value.suffix.trans ((trimLeft_suffix _).trans ((afterIdent_suffix _).trans
      (trimLeft_suffix _)))
  | structural single name => exact afterIdent_suffix _
  | nthChild single name bracketed formula | negation single name bracketed whole ne =>
    exact (readArgument_suffix bracketed).trans (afterIdent_suffix _)

/-- A condition takes at least one character, which is what ends the loop over conditions. -/
theorem ReadsSimple.length_lt (h : ReadsSimple cs s rest) : rest.length < cs.length := by
  cases cs with
  | nil => cases h
  | cons c cs => exact Nat.lt_succ_of_le h.suffix.length_le

/-- Conditions side by side leave an end of the text. -/
theorem ReadsSimples.suffix {simples : List Simple} (h : ReadsSimples cs simples rest) :
    rest <:+ cs := by
  induction h with
  | done stop => exact List.suffix_rfl
  | @more cs _ _ _ _ first _ ih =>
    cases cs with
    | nil => cases first
    | cons c cs => exact ih.trans (first.suffix.trans (List.suffix_cons _ _))

/-- The loop over conditions and the grammar agree, also on where the loop stops. -/
theorem readSimples_eq_ok_iff {simples : List Simple} :
    (readSimples source cs).map Read.pair = .ok (simples, rest) ↔
      ReadsSimples cs simples rest := by
  constructor
  · intro h
    induction hlength : cs.length using Nat.strong_induction_on generalizing cs simples with
    | _ length ih =>
    subst hlength
    rw [pair_readSimples] at h
    obtain ⟨one, hone, h⟩ := exists_of_bind h
    cases one with
    | none =>
      cases h
      exact .done (readSimple?_eq_none_iff.mp hone)
    | some first =>
      have hfirst := readSimple?_eq_some_iff.mp hone
      obtain ⟨others, hothers, heq⟩ := exists_of_map h
      cases heq
      exact .more hfirst (ih _ hfirst.length_lt hothers rfl)
  · intro h
    induction h with
    | done stop =>
      rw [pair_readSimples, readSimple?_eq_none_iff.mpr stop]
      rfl
    | more first others ih =>
      rw [pair_readSimples, readSimple?_eq_some_iff.mpr first]
      show Except.map _ (Except.map _ _) = _
      rw [ih]
      rfl

/-- Reading a compound, whatever selector faults are reported for. -/
theorem readCompound_eq_ok_iff (source : String) {compound : Compound} :
    (readCompound source cs).map Read.pair = .ok (compound, rest) ↔
      ReadsCompound cs compound rest := by
  rw [pair_readCompound]
  constructor
  · intro h
    obtain ⟨⟨simples, left⟩, hsimples, heq⟩ := exists_of_map h
    cases heq
    exact ⟨simples, readSimples_eq_ok_iff.mp hsimples, rfl⟩
  · rintro ⟨simples, hsimples, rfl⟩
    rw [readSimples_eq_ok_iff.mpr hsimples]
    rfl

/-- Reading a type, or none, leaves an end of the text. -/
theorem readHead_suffix (cs : List Char) : (readHead cs).2 <:+ cs := by
  unfold readHead
  split
  · exact List.suffix_rfl
  · split
    · exact List.suffix_cons _ _
    · split
      · exact afterIdent_suffix _
      · exact List.suffix_rfl

/-- What a condition begins with ends a name and is neither a blank nor a combinator. -/
theorem of_startsSimple {c : Char} (h : startsSimple c = true) :
    isIdentChar c = false ∧ isBlank c = false ∧ combinatorOf? c = none := by
  simp only [startsSimple, Bool.or_eq_true, beq_iff_eq] at h
  rcases h with ((rfl | rfl) | rfl) | rfl
  · decide
  · decide
  · decide
  · decide

/-- Where a condition with a mark begins there is no type. -/
theorem readHead_of_startsSimple {c : Char} (h : startsSimple c = true) (cs : List Char) :
    readHead (c :: cs) = (none, c :: cs) := by
  simp only [startsSimple, Bool.or_eq_true, beq_iff_eq] at h
  rcases h with ((rfl | rfl) | rfl) | rfl
  · rfl
  · rfl
  · rfl
  · rfl

/-- A condition alone is a compound. -/
theorem ReadsSimple.alone (h : ReadsSimple cs s []) : ReadsCompound cs [s] [] := by
  cases cs with
  | nil => cases h
  | cons c cs =>
    rw [ReadsCompound, readHead_of_startsSimple h.startsSimple]
    exact ⟨[s], .more h (.done (by simp)), rfl⟩

/-- A compound leaves an end of the text. -/
theorem ReadsCompound.suffix {compound : Compound} (h : ReadsCompound cs compound rest) :
    rest <:+ cs := by
  obtain ⟨simples, hsimples, -⟩ := h
  exact hsimples.suffix.trans (readHead_suffix cs)

/-- A compound with a condition takes some text. -/
theorem ReadsCompound.ne_nil {compound : Compound} (h : ReadsCompound cs compound rest)
    (hne : compound ≠ []) : cs ≠ [] := by
  obtain ⟨simples, hsimples, rfl⟩ := h
  rintro rfl
  cases hsimples with
  | done stop => exact hne rfl
  | more first others => cases first

end

/-! ### More text behind -/

section
variable {cs rest tail : List Char}

/-- A test ends at its bracket, so text behind it does not change it. -/
theorem ReadsTest.append {test : ValueTest} (h : ReadsTest cs test rest) (tail : List Char) :
    ReadsTest (cs ++ tail) test (rest ++ tail) := by
  cases h with
  | present => exact .present _
  | @compared _ valueText behind _ test value comparison quoted closed =>
    obtain ⟨mark, rfl, hmark⟩ := exists_of_readComparison comparison
    have hbehind : behind ≠ [] := by
      rintro rfl
      cases closed
    have hvalue : trimLeft valueText ≠ [] := by
      intro hnil
      rw [hnil] at quoted
      cases quoted
      exact hbehind rfl
    have hquoted : readTestValue (trimLeft (valueText ++ tail)) = .ok (value, behind ++ tail) := by
      rw [trimLeft_append_of_ne_nil hvalue]
      exact readTestValue_append quoted hbehind tail
    refine .compared ?_ hquoted ?_
    · rw [List.append_assoc]
      exact hmark _
    · rw [trimLeft_append_of_ne_nil (by rw [closed]; exact List.cons_ne_nil _ _), closed,
        List.cons_append]

/-- Behind a colon there is a name, so what is appended is not what follows the colon. -/
theorem head?_append_ne_colon (tail : List Char) (hhead : cs.head? ≠ some ':') (hne : cs ≠ []) :
    (cs ++ tail).head? ≠ some ':' := by
  cases cs with
  | nil => exact absurd rfl hne
  | cons c cs => exact hhead

/-- An argument begins behind the name, so the name ends before it. -/
theorem ident_append_of_readArgument (tail : List Char)
    (h : readArgument (afterIdent cs) = .ok (argument, rest)) :
    cs ≠ [] ∧ ident (cs ++ tail) = ident cs ∧
      readArgument (afterIdent (cs ++ tail)) = .ok (argument, rest ++ tail) := by
  have hopen : afterIdent cs ≠ [] := by
    intro hnil
    rw [hnil] at h
    cases h
  obtain ⟨hident, hafter⟩ := ident_append cs tail fun hnil => absurd hnil hopen
  rw [hident, hafter]
  refine ⟨?_, rfl, readArgument_append tail h⟩
  rintro rfl
  exact hopen rfl

/-- A condition ends with a bracket, and then anything may follow it. Or it ends with a name, and
then what follows must not go on with the name. -/
theorem ReadsSimple.bracketed_or_named (h : ReadsSimple cs s rest) :
    (∀ tail, ReadsSimple (cs ++ tail) s (rest ++ tail)) ∨
    ∃ c name, cs = c :: name ∧ c ≠ '[' ∧ rest = afterIdent name ∧
      ∀ tail, (rest = [] → ∀ c ∈ tail.head?, isIdentChar c = false) →
        ReadsSimple (cs ++ tail) s (rest ++ tail) := by
  cases h with
  | @id cs name =>
    refine .inr ⟨'#', cs, rfl, by decide, rfl, ?_⟩
    intro tail htail
    obtain ⟨hident, hafter⟩ := ident_append cs tail htail
    rw [List.cons_append, ← hident, ← hafter]
    rw [← hident] at name
    exact .id name
  | @className cs name =>
    refine .inr ⟨'.', cs, rfl, by decide, rfl, ?_⟩
    intro tail htail
    obtain ⟨hident, hafter⟩ := ident_append cs tail htail
    rw [List.cons_append, ← hident, ← hafter]
    rw [← hident] at name
    exact .className name
  | @test cs rest test name value =>
    have hstart : trimLeft cs ≠ [] := by
      intro hnil
      rw [hnil] at name
      exact name rfl
    have hbehind : trimLeft (afterIdent (trimLeft cs)) ≠ [] := by
      intro hnil
      rw [hnil] at value
      cases value with
      | compared comparison quoted closed => cases comparison
    refine .inl fun tail => ?_
    obtain ⟨hident, hafter⟩ := ident_append (trimLeft cs) tail fun hnil =>
      absurd (by rw [hnil]; rfl) hbehind
    rw [← trimLeft_append_of_ne_nil hstart] at hident hafter
    have hvalue := value.append tail
    rw [← trimLeft_append_of_ne_nil hbehind, ← hafter] at hvalue
    rw [List.cons_append, ← hident]
    rw [← hident] at name
    exact .test name hvalue
  | @structural cs s single name =>
    have hcs : cs ≠ [] := by
      rintro rfl
      cases name
    refine .inr ⟨':', cs, rfl, by decide, rfl, ?_⟩
    intro tail htail
    obtain ⟨hident, hafter⟩ := ident_append cs tail htail
    rw [List.cons_append, ← hafter]
    rw [← hident] at name
    exact .structural (head?_append_ne_colon tail single hcs) name
  | @nthChild cs argument rest a b single name bracketed formula =>
    refine .inl fun tail => ?_
    obtain ⟨hne, hident, hargument⟩ := ident_append_of_readArgument tail bracketed
    rw [← hident] at name
    exact .nthChild (head?_append_ne_colon tail single hne) name hargument formula
  | @negation cs argument rest compound single name bracketed whole ne =>
    refine .inl fun tail => ?_
    obtain ⟨hne, hident, hargument⟩ := ident_append_of_readArgument tail bracketed
    rw [← hident] at name
    exact .negation (head?_append_ne_colon tail single hne) name hargument whole ne

/-- Behind a condition that ends in a text there may be anything. Behind one that goes to the end of
the text there may be what does not go on with its name. -/
theorem ReadsSimple.append (h : ReadsSimple cs s rest)
    (htail : rest = [] → ∀ c ∈ tail.head?, isIdentChar c = false) :
    ReadsSimple (cs ++ tail) s (rest ++ tail) := by
  rcases h.bracketed_or_named with hall | ⟨c, name, -, -, -, hnamed⟩
  · exact hall tail
  · exact hnamed tail htail

/-- Text behind conditions does not change them. If they reach the end, what follows must neither go
on their last name nor begin another condition. -/
theorem ReadsSimples.append {simples : List Simple} (h : ReadsSimples cs simples rest)
    (htail : rest = [] → ∀ c ∈ tail.head?, isIdentChar c = false ∧ startsSimple c = false) :
    ReadsSimples (cs ++ tail) simples (rest ++ tail) := by
  induction h with
  | @done cs stop =>
    refine .done ?_
    cases cs with
    | nil => exact fun c hc => (htail rfl c hc).2
    | cons c cs => exact stop
  | more first others ih =>
    refine .more (first.append fun hnil c hc => ?_) (ih htail)
    rw [hnil] at others
    exact (htail (List.suffix_nil.mp others.suffix) c hc).1

/-- Text behind a type does not change it, unless the type reaches the end and the text goes on its
name. -/
theorem readHead_append (hcs : cs ≠ [])
    (htail : (readHead cs).2 = [] → ∀ c ∈ tail.head?, isIdentChar c = false) :
    readHead (cs ++ tail) = ((readHead cs).1, (readHead cs).2 ++ tail) := by
  cases cs with
  | nil => exact absurd rfl hcs
  | cons c cs =>
    simp only [readHead] at htail
    simp only [readHead, List.cons_append]
    split
    · rfl
    · rename_i huniversal
      rw [if_neg huniversal] at htail
      split
      · rename_i htype
        rw [if_pos htype] at htail
        obtain ⟨hident, hafter⟩ := ident_append (c :: cs) tail htail
        rw [List.cons_append] at hident hafter
        rw [hident, hafter]
      · rfl

/-- Behind a compound that ends in a text there may be anything. Behind one that goes to the end of
the text there may be what neither goes on with a name nor begins a condition. -/
theorem ReadsCompound.append {compound : Compound} (h : ReadsCompound cs compound rest)
    (hne : compound ≠ [])
    (htail : rest = [] → ∀ c ∈ tail.head?, isIdentChar c = false ∧ startsSimple c = false) :
    ReadsCompound (cs ++ tail) compound (rest ++ tail) := by
  have hcs := h.ne_nil hne
  obtain ⟨simples, hsimples, rfl⟩ := h
  have hhead : (readHead cs).2 = [] → ∀ c ∈ tail.head?, isIdentChar c = false := by
    intro hnil c hc
    rw [hnil] at hsimples
    exact (htail (List.suffix_nil.mp hsimples.suffix) c hc).1
  rw [ReadsCompound, readHead_append hcs hhead]
  exact ⟨simples, hsimples.append htail, rfl⟩

end

end EmailMarkup.Selector
