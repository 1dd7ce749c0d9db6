import EmailMarkup.Proofs.Selector.Formula
import EmailMarkup.Proofs.Selector.Negation

/-!
# Reading what selectors are written as

A selector is written from left to right, with its values in quotes and its formulas in their
shortest form. `read_printed_selector` says that reading gives the selector back, for every selector
whose names are plain, whose values fit into quotes, and whose negations have no closing bracket in
their argument (`Writable`).

A condition is `Legible` if it is read back from its text and has no blanks around it. Conditions
are legible one by one, compounds are read back because their conditions are (`reads_compound`), and
a negation is legible because its argument is read back. The compounds of a selector are then read
from left to right: the induction of `readParts_printParts` is over those that are still to come.
-/

set_option autoImplicit false

namespace EmailMarkup.Selector

open EmailMarkup.Text

/-! ### Writing -/

/-- The quotes that a value is written in: double ones, unless it holds one itself. -/
def quoteOf (value : String) : Char :=
  if '"' ∈ value.toList then '\'' else '"'

/-- A value in its quotes. -/
def quoted (value : String) : List Char :=
  quoteOf value :: (value.toList ++ [quoteOf value])

/-- A condition on a value, as it is written behind the name of the attribute. -/
def ValueTest.printChars : ValueTest → List Char
  | .present => []
  | .equals value => '=' :: quoted value
  | .includes value => '~' :: '=' :: quoted value
  | .dashMatch value => '|' :: '=' :: quoted value
  | .startsWith value => '^' :: '=' :: quoted value
  | .endsWith value => '$' :: '=' :: quoted value
  | .contains value => '*' :: '=' :: quoted value

/-- The name of a condition on the place of an element. -/
def Structural.name : Structural → String
  | .firstChild => "first-child"
  | .lastChild => "last-child"
  | .onlyChild => "only-child"
  | .firstOfType => "first-of-type"
  | .lastOfType => "last-of-type"
  | .onlyOfType => "only-of-type"
  | .root => "root"
  | .empty => "empty"
  | .nthChild _ _ => "nth-child"

/-- What is written behind the name of a condition on the place of an element. -/
def Structural.argument : Structural → List Char
  | .nthChild a b => '(' :: (formula a b ++ [')'])
  | _ => []

mutual

/-- A condition as it is written. -/
def Simple.printChars : Simple → List Char
  | .universal => ['*']
  | .type name => name.toList
  | .id name => '#' :: name.toList
  | .className name => '.' :: name.toList
  | .attribute name test => '[' :: (name.toList ++ (test.printChars ++ [']']))
  | .structural s => ':' :: (s.name.toList ++ s.argument)
  | .negation compound => ':' :: ("not".toList ++ '(' :: (printCharsOf compound ++ [')']))

/-- A compound as it is written. -/
def printCharsOf : List Simple → List Char
  | [] => []
  | s :: rest => s.printChars ++ printCharsOf rest

end

/-- A combinator as it is written between compounds. -/
def Combinator.printChars : Combinator → List Char
  | .descendant => [' ']
  | .child => [' ', '>', ' ']
  | .nextSibling => [' ', '+', ' ']
  | .subsequentSibling => [' ', '~', ' ']

/-- The compounds of a selector from left to right, each with the combinator behind it, and then the
subject. -/
def printParts (subject : Compound) : List (Compound × Combinator) → List Char
  | [] => printCharsOf subject
  | (compound, k) :: more => printCharsOf compound ++ (k.printChars ++ printParts subject more)

/-- A selector as it is written. -/
def print (s : Selector) : String :=
  String.ofList (printParts s.subject (s.context.reverse.map Prod.swap))

/-! ### What can be written -/

/-- A name of ASCII letters, digits, hyphens and underscores. -/
def IsPlainName (name : String) : Prop :=
  name ≠ "" ∧ ∀ c ∈ name.toList, (isNameChar c || c == '_') = true

-- Decided by the characters of the name, and not by all characters there are.
instance (name : String) : Decidable (IsPlainName name) :=
  decidable_of_iff (name ≠ "" ∧ (name.toList.all fun c => isNameChar c || c == '_') = true)
    (by rw [IsPlainName, List.all_eq_true])

/-- A value that fits into quotes of one kind or the other. -/
def IsQuotable (value : String) : Prop :=
  '"' ∉ value.toList ∨ '\'' ∉ value.toList

instance (value : String) : Decidable (IsQuotable value) :=
  inferInstanceAs (Decidable (_ ∨ _))

/-- The value that an attribute is compared with. -/
def ValueTest.value? : ValueTest → Option String
  | .present => none
  | .equals value | .includes value | .dashMatch value => some value
  | .startsWith value | .endsWith value | .contains value => some value

/-- What a compound may begin with, besides any other condition. -/
def Simple.IsHead : Simple → Prop
  | .universal => True
  | .type name =>
    IsPlainName name ∧ lower name = name ∧ ∀ c ∈ name.toList.head?, c.isAlpha = true ∨ c = '_'
  | _ => False

instance : DecidablePred Simple.IsHead
  | .universal => .isTrue trivial
  | .type name =>
    decidable_of_iff
      (IsPlainName name ∧ lower name = name ∧
        (name.toList.head?.all fun c => c.isAlpha || c == '_') = true)
      (by simp [Simple.IsHead, Option.all_eq_true])
  | .id _ | .className _ | .attribute _ _ | .structural _ | .negation _ => .isFalse id

/-- A condition without conditions in it that may stand anywhere in a compound. -/
def Simple.IsPlain : Simple → Prop
  | .id name | .className name => IsPlainName name
  | .attribute name test => IsPlainName name ∧ ∀ value ∈ test.value?, IsQuotable value
  | .structural (.nthChild a b) => IsWord32 a ∧ IsWord32 b
  | .structural _ => True
  | .universal | .type _ | .negation _ => False

instance : DecidablePred Simple.IsPlain
  | .id name | .className name => inferInstanceAs (Decidable (IsPlainName name))
  | .attribute _ _ => inferInstanceAs (Decidable (_ ∧ _))
  | .structural s => match s with
    | .nthChild _ _ => inferInstanceAs (Decidable (_ ∧ _))
    | .firstChild | .lastChild | .onlyChild | .root => .isTrue trivial
    | .firstOfType | .lastOfType | .onlyOfType | .empty => .isTrue trivial
  | .universal | .type _ | .negation _ => .isFalse id

/-- A condition that is written without a closing bracket. -/
def Simple.IsBracketless : Simple → Prop
  | .attribute _ test => ∀ value ∈ test.value?, ')' ∉ value.toList
  | .structural (.nthChild _ _) | .negation _ => False
  | _ => True

instance : DecidablePred Simple.IsBracketless
  | .attribute _ test => inferInstanceAs (Decidable (∀ value ∈ test.value?, ')' ∉ value.toList))
  | .structural s => match s with
    | .nthChild _ _ => .isFalse id
    | .firstChild | .lastChild | .onlyChild | .root => .isTrue trivial
    | .firstOfType | .lastOfType | .onlyOfType | .empty => .isTrue trivial
  | .negation _ => .isFalse id
  | .universal | .type _ | .id _ | .className _ => .isTrue trivial

/-- A compound of conditions of a kind, perhaps with a type before them. -/
def IsCompound (kind : Simple → Prop) : Compound → Prop
  | [] => False
  | s :: rest => (s.IsHead ∨ kind s) ∧ ∀ t ∈ rest, kind t

instance (kind : Simple → Prop) [DecidablePred kind] : DecidablePred (IsCompound kind)
  | [] => .isFalse id
  | _ :: _ => inferInstanceAs (Decidable (_ ∧ _))

/-- A condition that may stand anywhere in a compound. A negation is of a compound of plain
conditions without a closing bracket. -/
def Simple.IsWritable : Simple → Prop
  | .negation compound => IsCompound Simple.IsPlain compound ∧ ∀ s ∈ compound, s.IsBracketless
  | s => s.IsPlain

instance : DecidablePred Simple.IsWritable
  | .negation _ => inferInstanceAs (Decidable (_ ∧ _))
  | .universal | .type _ => .isFalse id
  | .id name | .className name => inferInstanceAs (Decidable (IsPlainName name))
  | .attribute name test => inferInstanceAs (Decidable (Simple.attribute name test).IsPlain)
  | .structural s => inferInstanceAs (Decidable (Simple.structural s).IsPlain)

/-- A selector that can be read back from what it is written as. -/
def Writable (s : Selector) : Prop :=
  IsCompound Simple.IsWritable s.subject ∧ ∀ part ∈ s.context, IsCompound Simple.IsWritable part.2

instance (s : Selector) : Decidable s.Writable :=
  inferInstanceAs (Decidable (_ ∧ _))

/-! ### Conditions -/

/-- A character of a plain name goes on an identifier, is no blank, and does not end the argument of
a negation. These are the three places where a name could be cut short. -/
theorem IsPlainName.of_mem {name : String} (h : IsPlainName name) {c : Char}
    (hc : c ∈ name.toList) : isIdentChar c = true ∧ isBlank c = false ∧ c ≠ ')' := by
  have hplain := h.2 c hc
  rw [Bool.or_eq_true, beq_iff_eq] at hplain
  rcases hplain with hname | rfl
  · refine ⟨?_, isBlank_of_isNameChar hname, ?_⟩
    · rw [isNameChar, Bool.or_eq_true] at hname
      rcases hname with halpha | hhyphen
      · simp [isIdentChar, halpha]
      · simp [isIdentChar, hhyphen]
    · rintro rfl
      exact absurd hname (by decide)
  · decide

/-- A plain name is read as far as it goes. -/
theorem ident_plainName {name : String} (h : IsPlainName name) {rest : List Char}
    (hrest : ∀ c ∈ rest.head?, isIdentChar c = false) :
    ident (name.toList ++ rest) = name ∧ afterIdent (name.toList ++ rest) = rest := by
  have hread := ident_of_name (fun c hc => (h.of_mem hc).1) hrest
  rwa [String.ofList_toList] at hread

/-- A plain name is not empty, so what is written for it begins with one of its own characters. -/
theorem IsPlainName.exists_cons {name : String} (h : IsPlainName name) :
    ∃ c cs, name.toList = c :: cs ∧ isIdentChar c = true ∧ isBlank c = false := by
  cases hchars : name.toList with
  | nil => exact absurd (String.toList_eq_nil_iff.mp hchars) h.1
  | cons c cs =>
    have hc := h.of_mem (hchars ▸ List.mem_cons_self)
    exact ⟨c, cs, rfl, hc.1, hc.2.1⟩

/-- A plain name at the end of a text. -/
theorem ident_plainName_end {name : String} (h : IsPlainName name) :
    ident name.toList = name ∧ afterIdent name.toList = [] := by
  have hread := @ident_plainName name h [] fun _ hc => nomatch hc
  rwa [List.append_nil] at hread

/-- A value is quoted by one of the two quotes. -/
theorem quoteOf_cases (value : String) : quoteOf value = '"' ∨ quoteOf value = '\'' := by
  unfold quoteOf
  split
  · exact .inr rfl
  · exact .inl rfl

/-- The quote that a value is written in does not occur in it. A value with quotes of both kinds has
no such quote, since selectors know no escapes; hence `IsQuotable`. -/
theorem quoteOf_notMem {value : String} (h : IsQuotable value) : quoteOf value ∉ value.toList := by
  unfold quoteOf
  split
  · rename_i hdouble
    exact h.resolve_left (fun hnot => hnot hdouble)
  · rename_i hdouble
    exact hdouble

/-- A value is read back from its quotes. -/
theorem readTestValue_printed {value : String} (h : IsQuotable value) (rest : List Char) :
    readTestValue (quoted value ++ rest) = .ok (value, rest) := by
  have hread := readTestValue_quoted (quoteOf_cases value) (quoteOf_notMem h) rest
  rw [String.ofList_toList] at hread
  rw [← hread, quoted, List.cons_append, List.append_assoc]
  rfl

/-- A quoted value begins with its quote, so no blank is dropped before it, whatever the value is.
-/
theorem trimLeft_quoted_append (value : String) (rest : List Char) :
    trimLeft (quoted value ++ rest) = quoted value ++ rest := by
  have hblank : isBlank (quoteOf value) = false := by
    rcases quoteOf_cases value with hquote | hquote
    · rw [hquote]
      decide
    · rw [hquote]
      decide
  exact trimLeft_cons hblank _

/-- A comparison with a value is read back from its mark and the value in quotes. -/
theorem reads_compared {value : String} (h : IsQuotable value) (mark : List Char)
    {test : String → ValueTest} (hmark : ∀ more, readComparison (mark ++ more) = .ok (test, more)) :
    ReadsTest ((mark ++ quoted value) ++ [']']) (test value) [] := by
  rw [List.append_assoc]
  refine .compared (hmark _) ?_ (trimLeft_cons (by decide) [])
  rw [trimLeft_quoted_append]
  exact readTestValue_printed h [']']

/-- A written test is read back up to its bracket. Only tests that compare have a value to be
quoted. -/
theorem reads_test {test : ValueTest} (h : ∀ value ∈ test.value?, IsQuotable value) :
    ReadsTest (test.printChars ++ [']']) test [] := by
  cases test with
  | present => exact .present []
  | equals value => exact reads_compared (h value rfl) ['='] fun _ => rfl
  | includes value => exact reads_compared (h value rfl) ['~', '='] fun _ => rfl
  | dashMatch value => exact reads_compared (h value rfl) ['|', '='] fun _ => rfl
  | startsWith value => exact reads_compared (h value rfl) ['^', '='] fun _ => rfl
  | endsWith value => exact reads_compared (h value rfl) ['$', '='] fun _ => rfl
  | contains value => exact reads_compared (h value rfl) ['*', '='] fun _ => rfl

/-- Behind the name of an attribute comes neither a blank nor more of the name. -/
theorem head_test (test : ValueTest) :
    ∀ c ∈ (test.printChars ++ [']']).head?, isIdentChar c = false ∧ isBlank c = false := by
  intro c hc
  cases test <;> cases hc <;> decide

/-- A written condition on an attribute is read back, and nothing is left. The name has to be plain,
or it would end early, and the value quotable, or the quote in it would close it. -/
theorem reads_attribute {name : String} {test : ValueTest} (hname : IsPlainName name)
    (htest : ∀ value ∈ test.value?, IsQuotable value) :
    ReadsSimple (Simple.attribute name test).printChars (.attribute name test) [] := by
  obtain ⟨hident, hafter⟩ := ident_plainName hname fun c hc => (head_test test c hc).1
  have hstart : trimLeft (name.toList ++ (test.printChars ++ [']'])) =
      name.toList ++ (test.printChars ++ [']']) := by
    obtain ⟨c, cs, hchars, -, hblank⟩ := hname.exists_cons
    rw [hchars]
    exact trimLeft_cons hblank _
  have hbehind : trimLeft (test.printChars ++ [']']) = test.printChars ++ [']'] :=
    trimLeft_eq_self fun c hc => (head_test test c hc).2
  have hread := @ReadsSimple.test (name.toList ++ (test.printChars ++ [']'])) [] test
    (by rw [hstart, hident]; exact hname.1)
    (by rw [hstart, hafter, hbehind]; exact reads_test htest)
  rw [hstart, hident] at hread
  exact hread

/-- The names of the conditions on places are plain, so they are read to their end. -/
theorem isPlainName_name (s : Structural) : IsPlainName s.name := by
  unfold Structural.name
  split
  all_goals exact ⟨by decide, List.all_eq_true.mp (by decide)⟩

/-- A written condition on a place is read back. For `nth-child` the two numbers have to fit a word
of 32 bits, as `IsPlain` asks: larger ones are refused by the reader. -/
theorem reads_structural {s : Structural} (h : (Simple.structural s).IsPlain) :
    ReadsSimple (Simple.structural s).printChars (.structural s) [] := by
  have hstop : ∀ c ∈ s.argument.head?, isIdentChar c = false := by
    intro c hc
    cases s <;> cases hc
    decide
  obtain ⟨hident, hafter⟩ := ident_plainName (isPlainName_name s) hstop
  have hsingle : (s.name.toList ++ s.argument).head? ≠ some ':' := by
    obtain ⟨c, cs, hchars, hc, -⟩ := (isPlainName_name s).exists_cons
    rw [hchars]
    intro hhead
    cases hhead
    exact absurd hc (by decide)
  cases s with
  | nthChild a b =>
    have hbracket : ')' ∉ formula a b := fun hmem =>
      (of_isFormulaChar (isFormulaChar_of_mem_formula hmem)).2.2 rfl
    have htrim : trimChars (formula a b) = formula a b :=
      (unpadded_of_forall fun c hc =>
        (of_isFormulaChar (isFormulaChar_of_mem_formula hc)).1).trimChars_eq
    refine @ReadsSimple.nthChild _ (formula a b) _ _ _ hsingle ?_ ?_ (readNth?_formula h.1 h.2)
    · rw [hident]
      show lower "nth-child" = "nth-child"
      decide
    · rw [hafter]
      exact readArgument_eq_ok_iff.mpr ⟨formula a b, rfl, hbracket, htrim.symm⟩
  | _ =>
    have hread := @ReadsSimple.structural _ _ hsingle (by rw [hident]; rfl)
    rwa [hafter] at hread

/-- A condition that is read back from its text, which has no blanks around it. -/
def Simple.Legible (s : Simple) : Prop :=
  ReadsSimple s.printChars s [] ∧ Unpadded s.printChars

/-- A name behind a mark has no blanks around it. -/
theorem unpadded_named {c : Char} (hc : isBlank c = false) {name : String}
    (hname : IsPlainName name) : Unpadded (c :: name.toList) := by
  refine unpadded_of_forall (List.forall_mem_cons.mpr ⟨hc, fun d hd => ?_⟩)
  exact (hname.of_mem hd).2.1

/-- The formula of a condition on a place has no blanks around it. -/
theorem unpadded_argument (s : Structural) : Unpadded s.argument := by
  cases s with
  | nthChild a b => exact unpadded_bracketed (by decide) (by decide) _
  | _ => exact unpadded_of_forall (fun _ hc => nomatch hc)

/-- A plain condition is read back wherever it stands, and nothing is trimmed off it. -/
theorem legible_of_isPlain {s : Simple} (h : s.IsPlain) : s.Legible := by
  cases s with
  | universal | type name | negation compound => exact h.elim
  | id name =>
    obtain ⟨hident, hafter⟩ := ident_plainName_end h
    have hread := @ReadsSimple.id name.toList (by rw [hident]; exact h.1)
    rw [hident, hafter] at hread
    exact ⟨hread, unpadded_named (by decide) h⟩
  | className name =>
    obtain ⟨hident, hafter⟩ := ident_plainName_end h
    have hread := @ReadsSimple.className name.toList (by rw [hident]; exact h.1)
    rw [hident, hafter] at hread
    exact ⟨hread, unpadded_named (by decide) h⟩
  | «attribute» name test =>
    refine ⟨reads_attribute h.1 h.2, ?_⟩
    rw [Simple.printChars, ← List.append_assoc]
    exact unpadded_bracketed (by decide) (by decide) _
  | structural s =>
    refine ⟨reads_structural h, ?_⟩
    have hname : Unpadded (':' :: s.name.toList) := unpadded_named (by decide) (isPlainName_name s)
    exact hname.append (unpadded_argument s)

/-! ### Compounds -/

/-- The text of a legible condition begins as conditions do. -/
theorem Simple.Legible.exists_cons {s : Simple} (h : s.Legible) :
    ∃ c cs, s.printChars = c :: cs ∧ startsSimple c = true := by
  have hreads := h.1
  cases hchars : s.printChars with
  | nil =>
    rw [hchars] at hreads
    cases hreads
  | cons c cs =>
    rw [hchars] at hreads
    exact ⟨c, cs, rfl, hreads.startsSimple⟩

/-- Conditions begin with their marks, so they do not go on a name that stands before them. -/
theorem isIdentChar_head_printCharsOf {simples : List Simple} (h : ∀ s ∈ simples, s.Legible) :
    ∀ c ∈ (printCharsOf simples).head?, isIdentChar c = false := by
  cases simples with
  | nil => exact fun _ hc => nomatch hc
  | cons s simples =>
    obtain ⟨c, cs, hchars, hstart⟩ := (h s List.mem_cons_self).exists_cons
    intro d hd
    rw [printCharsOf, hchars] at hd
    cases hd
    exact (of_startsSimple hstart).1

/-- Legible conditions side by side are read back one by one. -/
theorem reads_simples {simples : List Simple} (h : ∀ s ∈ simples, s.Legible) :
    ReadsSimples (printCharsOf simples) simples [] := by
  induction simples with
  | nil => exact .done (fun _ hc => nomatch hc)
  | cons s simples ih =>
    obtain ⟨hs, hsimples⟩ := List.forall_mem_cons.mp h
    exact .more (hs.1.append fun _ => isIdentChar_head_printCharsOf hsimples) (ih hsimples)

/-- Conditions side by side have no blanks around them, since none of them has. -/
theorem unpadded_printCharsOf {simples : List Simple} (h : ∀ s ∈ simples, s.Legible) :
    Unpadded (printCharsOf simples) := by
  induction simples with
  | nil => exact unpadded_of_forall (fun _ hc => nomatch hc)
  | cons s simples ih =>
    obtain ⟨hs, hsimples⟩ := List.forall_mem_cons.mp h
    exact hs.2.append (ih hsimples)

/-- A letter of ASCII is alphabetic, so a plain name may begin a type. -/
theorem isAlphabetic_of_isAlpha {c : Char} (h : c.isAlpha = true) : isAlphabetic c = true := by
  have hcode := isAlpha_iff.mp h
  rw [isAlphabetic, if_pos (by omega), h]

/-- What a compound begins with is read back before conditions. -/
theorem readHead_printed {s : Simple} (h : s.IsHead) {rest : List Char}
    (hrest : ∀ c ∈ rest.head?, isIdentChar c = false) :
    readHead (s.printChars ++ rest) = (some s, rest) := by
  cases s with
  | universal => rfl
  | type name =>
    obtain ⟨hname, hlower, hfirst⟩ := h
    obtain ⟨hident, hafter⟩ := ident_plainName hname hrest
    obtain ⟨c, cs, hchars, -, -⟩ := hname.exists_cons
    have hc : c.isAlpha = true ∨ c = '_' := hfirst c (by rw [hchars]; rfl)
    have huniversal : (c == '*') = false := by
      rcases hc with halpha | rfl
      · rw [beq_eq_false_iff_ne]
        rintro rfl
        exact absurd halpha (by decide)
      · decide
    have htype : (isAlphabetic c || c == '_') = true := by
      rcases hc with halpha | rfl
      · rw [isAlphabetic_of_isAlpha halpha, Bool.true_or]
      · decide
    rw [hchars, List.cons_append] at hident hafter
    rw [Simple.printChars, hchars, List.cons_append, readHead, huniversal, htype, hident, hafter,
      hlower]
    rfl
  | _ => exact h.elim

/-- A character of a name is no combinator. -/
theorem combinatorOf?_of_isIdentChar {c : Char} (h : isIdentChar c = true) :
    combinatorOf? c = none := by
  unfold combinatorOf?
  split
  · exact absurd h (by decide)
  · exact absurd h (by decide)
  · exact absurd h (by decide)
  · rfl

/-- A type or the universal condition has no blanks around it. -/
theorem unpadded_head {s : Simple} (h : s.IsHead) : Unpadded s.printChars := by
  cases s with
  | universal => decide
  | type name => exact unpadded_of_forall fun c hc => (h.1.of_mem hc).2.1
  | _ => exact h.elim

/-- What a type is written as does not begin like a combinator, and so it is not taken for one. -/
theorem Simple.IsHead.exists_cons {s : Simple} (h : s.IsHead) :
    ∃ c cs, s.printChars = c :: cs ∧ combinatorOf? c = none := by
  cases s with
  | universal => exact ⟨'*', [], rfl, rfl⟩
  | type name =>
    obtain ⟨c, cs, hchars, hc, -⟩ := h.1.exists_cons
    exact ⟨c, cs, hchars, combinatorOf?_of_isIdentChar hc⟩
  | _ => exact h.elim

section
variable {compound : Compound}

/-- A compound of legible conditions is read back from its text. -/
theorem reads_compound (h : IsCompound Simple.Legible compound) :
    ReadsCompound (printCharsOf compound) compound [] := by
  cases compound with
  | nil => exact h.elim
  | cons s rest =>
    obtain ⟨hs | hs, hrest⟩ := h
    · rw [ReadsCompound, printCharsOf, readHead_printed hs (isIdentChar_head_printCharsOf hrest)]
      exact ⟨rest, reads_simples hrest, rfl⟩
    · have hall := List.forall_mem_cons.mpr ⟨hs, hrest⟩
      have hreads := reads_simples hall
      obtain ⟨c, cs, hchars, hstart⟩ := hs.exists_cons
      rw [printCharsOf, hchars, List.cons_append] at hreads ⊢
      rw [ReadsCompound, readHead_of_startsSimple hstart]
      exact ⟨s :: rest, hreads, rfl⟩

/-- A written compound has no blanks around it, so trimming a selector does not shorten it. -/
theorem unpadded_compound (h : IsCompound Simple.Legible compound) :
    Unpadded (printCharsOf compound) := by
  cases compound with
  | nil => exact h.elim
  | cons s rest =>
    obtain ⟨hs | hs, hrest⟩ := h
    · exact (unpadded_head hs).append (unpadded_printCharsOf hrest)
    · exact hs.2.append (unpadded_printCharsOf hrest)

/-- What a compound is written as does not begin like a combinator. -/
theorem IsCompound.exists_cons (h : IsCompound Simple.Legible compound) :
    ∃ c cs, printCharsOf compound = c :: cs ∧ combinatorOf? c = none := by
  cases compound with
  | nil => exact h.elim
  | cons s rest =>
    obtain ⟨hs | hs, -⟩ := h
    · obtain ⟨c, cs, hchars, hc⟩ := hs.exists_cons
      exact ⟨c, cs ++ printCharsOf rest, by rw [printCharsOf, hchars, List.cons_append], hc⟩
    · obtain ⟨c, cs, hchars, hstart⟩ := hs.exists_cons
      exact ⟨c, cs ++ printCharsOf rest, by rw [printCharsOf, hchars, List.cons_append],
        (of_startsSimple hstart).2.2⟩

/-- Compounds of one kind of conditions are compounds of a wider kind. -/
theorem IsCompound.mono {kind other : Simple → Prop} (himp : ∀ s, kind s → other s)
    (h : IsCompound kind compound) : IsCompound other compound := by
  cases compound with
  | nil => exact h
  | cons s rest => exact ⟨h.1.imp id (himp s), fun t ht => himp t (h.2 t ht)⟩

/-- A compound has at least one condition. -/
theorem IsCompound.ne_nil {kind : Simple → Prop} (h : IsCompound kind compound) :
    compound ≠ [] := by
  rintro rfl
  exact h

end

/-! ### Negations -/

/-- A test without closing brackets in its value is written without any. -/
theorem bracket_notMem_test {test : ValueTest}
    (h : ∀ value ∈ test.value?, ')' ∉ value.toList) : ')' ∉ test.printChars := by
  have hquoted : ∀ value ∈ test.value?, ')' ∉ quoted value := by
    intro value hvalue
    rcases quoteOf_cases value with hquote | hquote
    · simpa [quoted, hquote] using h value hvalue
    · simpa [quoted, hquote] using h value hvalue
  cases test with
  | present => exact List.not_mem_nil
  | equals value | includes value | dashMatch value | startsWith value | endsWith value
  | contains value =>
    simpa [ValueTest.printChars] using hquoted value rfl

/-- A plain name has no closing bracket in it. -/
theorem bracket_notMem_name {name : String} (h : IsPlainName name) : ')' ∉ name.toList :=
  fun hmem => (h.of_mem hmem).2.2 rfl

/-- A condition without a bracket of its own is written without a closing one, so it may stand in a
negation, which ends at the first of them. -/
theorem bracket_notMem_simple {s : Simple} (h : s.IsHead ∨ s.IsPlain) (hs : s.IsBracketless) :
    ')' ∉ s.printChars := by
  cases s with
  | universal => decide
  | type name => exact bracket_notMem_name (h.resolve_right id).1
  | id name | className name =>
    simpa [Simple.printChars] using bracket_notMem_name (h.resolve_left id)
  | «attribute» name test =>
    have hname := bracket_notMem_name (h.resolve_left id).1
    simpa [Simple.printChars, hname] using bracket_notMem_test hs
  | structural s =>
    have hname := bracket_notMem_name (isPlainName_name s)
    cases s with
    | nthChild a b => exact hs.elim
    | _ => simpa [Simple.printChars, Structural.argument] using hname
  | negation compound => exact hs.elim

/-- A compound of such conditions is written without a closing bracket. -/
theorem bracket_notMem_compound {compound : Compound} (h : IsCompound Simple.IsPlain compound)
    (hs : ∀ s ∈ compound, s.IsBracketless) : ')' ∉ printCharsOf compound := by
  have hall : ∀ s ∈ compound, s.IsHead ∨ s.IsPlain := by
    cases compound with
    | nil => exact fun _ hs => nomatch hs
    | cons s rest => exact List.forall_mem_cons.mpr ⟨h.1, fun t ht => .inr (h.2 t ht)⟩
  -- From here on the first condition is like the others.
  clear h
  induction compound with
  | nil => exact List.not_mem_nil
  | cons s rest ih =>
    obtain ⟨hfirst, hrest⟩ := List.forall_mem_cons.mp hs
    obtain ⟨hkind, hkinds⟩ := List.forall_mem_cons.mp hall
    rw [printCharsOf, List.mem_append, not_or]
    exact ⟨bracket_notMem_simple hkind hfirst, ih hrest hkinds⟩

/-- Also a negation is read back, if what it negates is written without a closing bracket. -/
theorem legible_of_isWritable {s : Simple} (h : s.IsWritable) : s.Legible := by
  cases s with
  | negation compound =>
    have hlegible := h.1.mono fun _ => legible_of_isPlain
    have htrim := (unpadded_compound hlegible).trimChars_eq
    have hreads := reads_compound hlegible
    rw [← htrim] at hreads
    exact ⟨reads_negation h.1.ne_nil hreads (bracket_notMem_compound h.1 h.2),
      unpadded_negation _⟩
  | _ => exact legible_of_isPlain h

/-! ### Selectors -/

/-- Between two compounds the combinator is read back. -/
theorem readFurther_combinator (source : String) (before : List (Compound × Combinator))
    {compound : Compound} (hne : compound ≠ []) (k : Combinator) {c : Char}
    (hblank : isBlank c = false) (hc : combinatorOf? c = none) (cs : List Char) :
    readFurther source before (compound, k.printChars ++ c :: cs) =
      readParts source ((compound, k) :: before) (c :: cs) := by
  have hspace : trimLeft (' ' :: c :: cs) = c :: cs := trimLeft_cons hblank cs
  unfold readFurther
  rw [if_neg (by simpa using hne)]
  cases k with
  | descendant =>
    simp only [Combinator.printChars, List.singleton_append, hspace, hc]
    exact if_pos (Nat.lt_succ_self _)
  | child | nextSibling | subsequentSibling =>
    show readParts source ((compound, _) :: before) (trimLeft (' ' :: c :: cs)) = _
    rw [hspace]

section
variable {subject : Compound} {parts : List (Compound × Combinator)}

/-- What parts are written as does not begin like a combinator. -/
theorem exists_cons_printParts (hsubject : IsCompound Simple.Legible subject)
    (hparts : ∀ part ∈ parts, IsCompound Simple.Legible part.1) :
    ∃ c cs, printParts subject parts = c :: cs ∧ combinatorOf? c = none := by
  cases parts with
  | nil => exact hsubject.exists_cons
  | cons part parts =>
    obtain ⟨c, cs, hchars, hc⟩ := (hparts part List.mem_cons_self).exists_cons
    refine ⟨c, cs ++ (part.2.printChars ++ printParts subject parts), ?_, hc⟩
    rw [printParts, hchars, List.cons_append]

/-- Written parts have no blanks around them. -/
theorem unpadded_printParts (hsubject : IsCompound Simple.Legible subject)
    (hparts : ∀ part ∈ parts, IsCompound Simple.Legible part.1) :
    Unpadded (printParts subject parts) := by
  induction parts with
  | nil => exact unpadded_compound hsubject
  | cons part parts ih =>
    obtain ⟨hpart, hmore⟩ := List.forall_mem_cons.mp hparts
    obtain ⟨c, cs, hchars, -⟩ := hpart.exists_cons
    obtain ⟨d, ds, hbehind, -⟩ := exists_cons_printParts hsubject hmore
    refine (unpadded_compound hpart).around ?_ (ih hmore) ?_ part.2.printChars
    · rw [hchars]
      exact List.cons_ne_nil c cs
    · rw [hbehind]
      exact List.cons_ne_nil d ds

/-- The compounds of a selector are read back from left to right, behind those that were read
before. -/
theorem readParts_printParts (source : String) (hsubject : IsCompound Simple.Legible subject)
    (hparts : ∀ part ∈ parts, IsCompound Simple.Legible part.1)
    (before : List (Compound × Combinator)) :
    readParts source before (printParts subject parts) =
      .ok { subject, context := (parts.reverse ++ before).map Prod.swap } := by
  induction parts generalizing before with
  | nil =>
    rw [printParts, readParts_eq, (readCompound_eq_ok_iff source).mpr (reads_compound hsubject)]
    show (if subject.isEmpty = true then _ else _) = _
    rw [if_neg (by simpa using hsubject.ne_nil)]
    rfl
  | cons part parts ih =>
    obtain ⟨compound, k⟩ := part
    obtain ⟨hpart, hmore⟩ := List.forall_mem_cons.mp hparts
    obtain ⟨c, cs, hbehind, hc⟩ := exists_cons_printParts hsubject hmore
    have hblank : isBlank c = false :=
      (unpadded_printParts hsubject hmore).1 c (by rw [hbehind]; rfl)
    -- A combinator begins with a blank, so the compound is read as if nothing followed it.
    have hreads : ReadsCompound (printParts subject ((compound, k) :: parts)) compound
        (k.printChars ++ c :: cs) := by
      rw [printParts, hbehind]
      refine (reads_compound hpart).append hpart.ne_nil fun _ d hd => ?_
      cases k <;> cases hd <;> decide
    rw [readParts_eq, (readCompound_eq_ok_iff source).mpr hreads]
    show readFurther source before (compound, k.printChars ++ c :: cs) = _
    rw [readFurther_combinator source before hpart.ne_nil k hblank hc, ← hbehind,
      ih hmore, List.reverse_cons, List.append_assoc]
    rfl

end

/-- Reading gives back the selector that was written. -/
theorem read_printed_selector {s : Selector} (h : s.Writable) : read s.print = .ok s := by
  have hsubject := h.1.mono fun _ => legible_of_isWritable
  have hparts : ∀ part ∈ s.context.reverse.map Prod.swap,
      IsCompound Simple.Legible part.1 := by
    intro part hpart
    obtain ⟨swapped, hmem, rfl⟩ := List.mem_map.mp hpart
    exact (h.2 swapped (List.mem_reverse.mp hmem)).mono fun _ => legible_of_isWritable
  have htrim : trimChars s.print.toList =
      printParts s.subject (s.context.reverse.map Prod.swap) := by
    rw [print, String.toList_ofList]
    exact (unpadded_printParts hsubject hparts).trimChars_eq
  have hcontext : ((s.context.reverse.map Prod.swap).reverse ++ []).map Prod.swap = s.context := by
    simp
  show readParts (String.ofList (trimChars s.print.toList)) [] (trimChars s.print.toList) = _
  rw [htrim, readParts_printParts _ hsubject hparts, hcontext]

/-- A selector with every kind of condition and combinator. -/
def crowdedSelector : Selector where
  subject :=
    [.type "a", .attribute "href" (.startsWith "it's)"), .structural (.nthChild (-3) 1),
      .negation [.type "b", .attribute "title" (.contains "\"x\""), .structural .firstChild]]
  context :=
    [(.child, [.universal]),
     (.descendant, [.id "top", .className "B_2", .attribute "lang" (.dashMatch "en")]),
     (.nextSibling, [.structural (.nthChild 0 (-2147483648))]),
     (.subsequentSibling, [.attribute "x" .present, .structural (.nthChild (-1) 2147483647)])]

/-- With both signs and both bounds of a word in its formulas, a quote in quotes, and a bracket in a
value. -/
theorem crowdedSelector_read_back :
    crowdedSelector.print =
      "[x]:nth-child(-n+2147483647) ~ :nth-child(-2147483648) + #top.B_2[lang|=\"en\"] " ++
        "* > a[href^=\"it's)\"]:nth-child(-3n+1):not(b[title*='\"x\"']:first-child)" ∧
    crowdedSelector.Writable ∧ read crowdedSelector.print = .ok crowdedSelector := by
  have hwritable : crowdedSelector.Writable := by decide +kernel
  exact ⟨by decide +kernel, hwritable, read_printed_selector hwritable⟩

end EmailMarkup.Selector
