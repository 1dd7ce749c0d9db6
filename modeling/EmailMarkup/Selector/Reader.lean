import EmailMarkup.Selector.Basic
import EmailMarkup.Text.Ascii
import EmailMarkup.Text.Blank
import EmailMarkup.Text.Letter

/-!
# Reading selectors

A selector is read from left to right and stored from right to left. Two things can be wrong with
it: it may not be a selector, with a reason, or it may depend on what a reader of the message does,
such as hovering, which a written document cannot show.

`Read α cs` is a value read off the front of `cs` together with a rest that is no longer than `cs`.

The depth of brackets in a selector list is an integer without bounds. It changes by at most one
with each character, so it stays within a signed word of 32 bits in every list of less than two
billion characters.
-/

namespace EmailMarkup.Selector

open EmailMarkup.Text

/-- Why a text is not a selector. -/
inductive Reason where
  | emptyId
  | emptyClass
  | emptyAttributeName
  | malformedAttribute
  | malformedOperator
  | unterminatedString
  | expected (c : Char)
  | badNthChild
  | notCompound
  | unknownPseudoClass (name : String)
  | unexpected (c : Char)
  | expectedSelector
  deriving DecidableEq, Repr

/-- The text of a reason. -/
def Reason.message : Reason → String
  | .emptyId => "empty id"
  | .emptyClass => "empty class"
  | .emptyAttributeName => "empty attribute name"
  | .malformedAttribute => "malformed attribute selector"
  | .malformedOperator => "malformed attribute operator"
  | .unterminatedString => "unterminated string"
  | .expected c => "expected '" ++ String.singleton c ++ "'"
  | .badNthChild => "bad nth-child argument"
  | .notCompound => ":not() takes a compound selector"
  | .unknownPseudoClass name => "unknown pseudo-class ':" ++ name ++ "'"
  | .unexpected c => "unexpected '" ++ String.singleton c ++ "'"
  | .expectedSelector => "expected a selector"

/-- What can be wrong with a selector, which is given with it. -/
inductive Fault where
  | invalid (selector : String) (reason : Reason)
  /-- The selector depends on what the reader does. -/
  | dynamic (selector : String)
  deriving DecidableEq, Repr

/-- The text of a fault. -/
def Fault.message : Fault → String
  | .invalid selector reason => "invalid selector '" ++ selector ++ "': " ++ reason.message
  | .dynamic selector => "selector '" ++ selector ++ "' depends on runtime state"

/-- A value read off the front of a text, and the rest. -/
structure Read (α : Type) (cs : List Char) where
  value : α
  rest : List Char
  bound : rest.length ≤ cs.length

/-- Conditions on what a reader does. -/
def dynamicPseudoClasses : List String :=
  ["hover", "active", "focus", "focus-within", "focus-visible", "visited", "link", "any-link",
    "target", "checked", "disabled", "enabled", "placeholder-shown"]

/-- Parts of an element that are not elements. -/
def pseudoElements : List String :=
  ["before", "after", "first-line", "first-letter"]

/-- The structural conditions that have a name and no argument. -/
def structuralNames : List (String × Structural) :=
  [("first-child", .firstChild), ("last-child", .lastChild), ("only-child", .onlyChild),
    ("first-of-type", .firstOfType), ("last-of-type", .lastOfType),
    ("only-of-type", .onlyOfType), ("root", .root), ("empty", .empty)]

/-- Characters of names. -/
def isIdentChar (c : Char) : Bool :=
  c.isAlphanum || c == '-' || c == '_' || 0x80 ≤ c.toNat

/-- The name at the start of a text. -/
def ident (cs : List Char) : String :=
  String.ofList (cs.takeWhile isIdentChar)

/-- What follows the name at the start of a text. -/
def afterIdent (cs : List Char) : List Char :=
  cs.dropWhile isIdentChar

/-- What follows a name is no longer. -/
theorem length_afterIdent_le (cs : List Char) : (afterIdent cs).length ≤ cs.length :=
  (List.dropWhile_sublist _).length_le

/-- What follows blanks is no longer. -/
theorem length_trimLeft_le (cs : List Char) : (trimLeft cs).length ≤ cs.length :=
  (List.dropWhile_sublist _).length_le

/-- The type condition at the start of a compound, if there is one, and what follows it. -/
def readHead (cs : List Char) : Option Simple × List Char :=
  match cs with
  | [] => (none, [])
  | c :: rest =>
    if c == '*' then (some .universal, rest)
    else if isAlphabetic c || c == '_' then (some (.type (lower (ident cs))), afterIdent cs)
    else (none, cs)

/-- What follows the type condition is no longer. -/
theorem length_readHead_le (cs : List Char) : (readHead cs).2.length ≤ cs.length := by
  unfold readHead
  split
  · simp
  · split
    · simp
    · split
      · exact length_afterIdent_le _
      · exact Nat.le_refl _

/-- The comparison at the start of a text, after the name of an attribute: what it makes of a value,
and what follows it. Every comparison but equality is two characters long. -/
def readComparison (cs : List Char) : Except Reason ((String → ValueTest) × List Char) :=
  match cs with
  | '=' :: rest => .ok (.equals, rest)
  | '~' :: rest => second .includes rest
  | '|' :: rest => second .dashMatch rest
  | '^' :: rest => second .startsWith rest
  | '$' :: rest => second .endsWith rest
  | '*' :: rest => second .contains rest
  | _ => .error .malformedAttribute
where
  /-- The second character of a comparison has to be an equals sign. -/
  second (test : String → ValueTest) : List Char → Except Reason ((String → ValueTest) × List Char)
    | '=' :: rest => .ok (test, rest)
    | _ => .error .malformedOperator

/-- What follows a comparison is shorter. -/
theorem length_of_readComparison {cs rest : List Char} {test : String → ValueTest}
    (h : readComparison cs = .ok (test, rest)) : rest.length ≤ cs.length := by
  have hsecond : ∀ t cs,
      readComparison.second t cs = .ok (test, rest) → rest.length ≤ cs.length := by
    intro t cs h
    unfold readComparison.second at h
    split at h
    · simp only [Except.ok.injEq, Prod.mk.injEq] at h
      simp [h.2]
    · simp at h
  unfold readComparison at h
  split at h
  · simp only [Except.ok.injEq, Prod.mk.injEq] at h
    simp [h.2]
  all_goals first
    | exact Nat.le_succ_of_le (hsecond _ _ h)
    | simp at h

/-- The value of an attribute condition: a text in quotes, or a name. -/
def readTestValue (cs : List Char) : Except Reason (String × List Char) :=
  match cs with
  | c :: rest =>
    if c == '"' || c == '\'' then
      match rest.dropWhile (· != c) with
      | _ :: next => .ok (String.ofList (rest.takeWhile (· != c)), next)
      | [] => .error .unterminatedString
    else .ok (ident cs, afterIdent cs)
  | [] => .ok ("", [])

/-- What follows a value is no longer. -/
theorem length_of_readTestValue {cs rest : List Char} {value : String}
    (h : readTestValue cs = .ok (value, rest)) : rest.length ≤ cs.length := by
  unfold readTestValue at h
  split at h
  · rename_i c tail
    have hdrop := (List.dropWhile_sublist (l := tail) (· != c)).length_le
    split at h
    · split at h
      · rename_i heq
        simp only [Except.ok.injEq, Prod.mk.injEq] at h
        rw [heq] at hdrop
        simp only [List.length_cons, ← h.2] at *
        omega
      · simp at h
    · simp only [Except.ok.injEq, Prod.mk.injEq] at h
      rw [← h.2]
      exact length_afterIdent_le _
  · simp only [Except.ok.injEq, Prod.mk.injEq] at h
    simp [← h.2]

/-- An attribute condition after its opening bracket. -/
def readAttribute (cs : List Char) : Except Reason (Read Simple cs) :=
  let start := trimLeft cs
  let name := ident start
  let tail := trimLeft (afterIdent start)
  have htail : tail.length ≤ cs.length :=
    Nat.le_trans (length_trimLeft_le _)
      (Nat.le_trans (length_afterIdent_le _) (length_trimLeft_le _))
  if name.isEmpty then .error .emptyAttributeName
  -- After the name comes the end of the condition or a comparison.
  else match htail' : tail with
    | ']' :: rest =>
      .ok { value := .attribute name .present
            rest
            bound := by simp only [List.length_cons] at htail; omega }
    | tail =>
      match hc : readComparison tail with
      | .error e => .error e
      | .ok (test, rest) =>
        match hv : readTestValue (trimLeft rest) with
        | .error e => .error e
        | .ok (value, rest') =>
          match he : trimLeft rest' with
          | ']' :: next =>
            .ok { value := .attribute name (test value)
                  rest := next
                  bound := by
                    have h₁ := length_of_readComparison hc
                    have h₂ := length_of_readTestValue hv
                    have h₃ := length_trimLeft_le rest
                    have h₄ := length_trimLeft_le rest'
                    rw [he, List.length_cons] at h₄
                    omega }
          | _ => .error (.expected ']')

/-- The argument in round brackets at the start of a text, without blanks at its ends, and what
follows it. The argument goes to the first closing bracket. -/
def readArgument (cs : List Char) : Except Reason (List Char × List Char) :=
  match cs with
  | '(' :: rest =>
    match rest.dropWhile (· != ')') with
    | _ :: next => .ok (trimChars (rest.takeWhile (· != ')')), next)
    | [] => .error (.expected ')')
  | _ => .error (.expected '(')

/-- Trimming does not lengthen a text. -/
theorem length_trimChars_le (cs : List Char) : (trimChars cs).length ≤ cs.length := by
  have h₁ := (List.dropWhile_sublist (l := (trimLeft cs).reverse) isBlank).length_le
  have h₂ := length_trimLeft_le cs
  rw [List.length_reverse] at h₁
  simp only [trimChars, trimRight, List.length_reverse]
  omega

/-- An argument and what follows it are shorter than the text. -/
theorem length_of_readArgument {cs argument next : List Char}
    (h : readArgument cs = .ok (argument, next)) :
    argument.length < cs.length ∧ next.length < cs.length := by
  unfold readArgument at h
  split at h
  · rename_i rest
    have hdrop := (List.dropWhile_sublist (l := rest) (· != ')')).length_le
    have htake := (List.takeWhile_sublist (l := rest) (· != ')')).length_le
    have htrim := length_trimChars_le (rest.takeWhile (· != ')'))
    split at h
    · rename_i heq
      simp only [Except.ok.injEq, Prod.mk.injEq] at h
      rw [heq] at hdrop
      simp only [List.length_cons, ← h.1, ← h.2] at *
      omega
    · simp at h
  · simp at h

/-- The coefficient before the `n` of a formula. -/
def readCoefficient? (cs : List Char) : Option Int :=
  if cs = [] ∨ cs = ['+'] then some 1
  else if cs = ['-'] then some (-1)
  else word32? cs

/-- The formula of an `nth-child` condition: `odd`, `even`, a number, or a multiple of `n` and
perhaps a number. Blanks do not count. -/
def readNth? (argument : List Char) : Option (Int × Int) :=
  let formula := lowerChars (argument.filter fun c => !isBlank c)
  if formula = "odd".toList then some (2, 1)
  else if formula = "even".toList then some (2, 0)
  else match formula.dropWhile (· != 'n') with
    -- Without an `n` the formula is a single position.
    | [] => (word32? formula).map fun b => (0, b)
    | _ :: offset => do
      let a ← readCoefficient? (formula.takeWhile (· != 'n'))
      let b ← if offset.isEmpty then some 0 else word32? offset
      return (a, b)

/-- A condition with a colon other than a negation: its name has been read, and `cs` follows it. -/
def readPseudoClass (source name : String) (cs : List Char) : Except Fault (Read Simple cs) :=
  match structuralNames.lookup name with
  | some s => .ok { value := .structural s, rest := cs, bound := Nat.le_refl _ }
  | none =>
    if name == "nth-child" then
      match h : readArgument cs with
      | .error e => .error (.invalid source e)
      | .ok (argument, next) =>
        match readNth? argument with
        | some (a, b) =>
          .ok { value := .structural (.nthChild a b)
                rest := next
                bound := Nat.le_of_lt (length_of_readArgument h).2 }
        | none => .error (.invalid source .badNthChild)
    else if pseudoElements.contains name || dynamicPseudoClasses.contains name then
      .error (.dynamic source)
    else .error (.invalid source (.unknownPseudoClass name))

/-- The conditions after the type condition of a compound. The text `source` is the selector that a
fault is reported for: inside a negation, its argument. -/
def readSimples (source : String) (cs : List Char) : Except Fault (Read (List Simple) cs) :=
  match cs with
  | '#' :: rest => do
    if (ident rest).isEmpty then throw (.invalid source .emptyId)
    have := length_afterIdent_le rest
    let more ← readSimples source (afterIdent rest)
    return { value := .id (ident rest) :: more.value
             rest := more.rest
             bound := by have := more.bound; simp only [List.length_cons]; omega }
  | '.' :: rest => do
    if (ident rest).isEmpty then throw (.invalid source .emptyClass)
    have := length_afterIdent_le rest
    let more ← readSimples source (afterIdent rest)
    return { value := .className (ident rest) :: more.value
             rest := more.rest
             bound := by have := more.bound; simp only [List.length_cons]; omega }
  | '[' :: rest =>
    match readAttribute rest with
    | .error e => .error (.invalid source e)
    | .ok first => do
      have := first.bound
      let more ← readSimples source first.rest
      return { value := first.value :: more.value
               rest := more.rest
               bound := by have := more.bound; simp only [List.length_cons]; omega }
  | ':' :: rest =>
    have hrest := length_afterIdent_le rest
    let name := lower (ident rest)
    -- Two colons name a part of an element, whatever follows.
    if rest.head? == some ':' then .error (.dynamic source)
    else if name == "not" then
      match h : readArgument (afterIdent rest) with
      | .error e => .error (.invalid source e)
      | .ok (argument, next) => do
        have harg := length_of_readArgument h
        have hhead := length_readHead_le argument
        let head := readHead argument
        -- A fault inside the argument is reported for the argument alone.
        let inner ← readSimples (String.ofList argument) head.2
        let compound := head.1.toList ++ inner.value
        -- The argument has to be one compound, with nothing after it.
        if compound.isEmpty || !inner.rest.isEmpty then throw (.invalid source .notCompound)
        let more ← readSimples source next
        return { value := .negation compound :: more.value
                 rest := more.rest
                 bound := by have := more.bound; simp only [List.length_cons]; omega }
    else
      match readPseudoClass source name (afterIdent rest) with
      | .error e => .error e
      | .ok first => do
        have := first.bound
        let more ← readSimples source first.rest
        return { value := first.value :: more.value
                 rest := more.rest
                 bound := by have := more.bound; simp only [List.length_cons]; omega }
  | cs => .ok { value := [], rest := cs, bound := Nat.le_refl _ }
termination_by cs.length
decreasing_by all_goals (simp only [List.length_cons]; omega)

/-- A compound at the start of a text. It may be empty. -/
def readCompound (source : String) (cs : List Char) : Except Fault (Read Compound cs) := do
  let head := readHead cs
  let simples ← readSimples source head.2
  return { value := head.1.toList ++ simples.value
           rest := simples.rest
           bound := Nat.le_trans simples.bound (length_readHead_le cs) }

/-- The combinator that a character stands for. -/
def combinatorOf? : Char → Option Combinator
  | '>' => some .child
  | '+' => some .nextSibling
  | '~' => some .subsequentSibling
  | _ => none

/-- The compounds of a selector from the start of a text to its end. What has been read so far is
given and kept from right to left. -/
def readParts (source : String) (before : List (Compound × Combinator)) (cs : List Char) :
    Except Fault Selector := do
  let compound ← readCompound source cs
  if compound.value.isEmpty then
    throw (.invalid source (match compound.rest with
      | c :: _ => .unexpected c
      | [] => .expectedSelector))
  let tail := trimLeft compound.rest
  match htail : tail with
  | [] =>
    return { subject := compound.value, context := before.map fun (c, k) => (k, c) }
  | c :: rest =>
    have hlen : rest.length < cs.length := by
      have h₁ := compound.bound
      have h₂ := length_trimLeft_le compound.rest
      rw [show trimLeft compound.rest = c :: rest from htail, List.length_cons] at h₂
      omega
    match combinatorOf? c with
    | some k =>
      have := length_trimLeft_le rest
      readParts source ((compound.value, k) :: before) (trimLeft rest)
    | none =>
      -- Blanks that no other combinator follows are one themselves.
      if hspace : tail.length < compound.rest.length then
        have : (c :: rest).length < cs.length := by
          have h₁ := compound.bound
          rw [htail] at hspace
          omega
        readParts source ((compound.value, .descendant) :: before) (c :: rest)
      else throw (.invalid source (.unexpected c))
termination_by cs.length
decreasing_by all_goals omega

/-- Reads a selector. -/
def read (selector : String) : Except Fault Selector :=
  let cs := trimChars selector.toList
  readParts (String.ofList cs) [] cs

/-! ### Selector lists -/

/-- Puts a character before the first piece. -/
def onFirst (c : Char) : List (List Char) → List (List Char)
  | [] => [[c]]
  | piece :: pieces => (c :: piece) :: pieces

/-- Cuts a text at the commas outside quotes and brackets, given the depth of brackets and the quote
that is open. -/
def splitTopLevel (depth : Int) (quote : Option Char) : List Char → List (List Char)
  | [] => [[]]
  | c :: cs =>
    match quote with
    | some q => onFirst c (splitTopLevel depth (if c == q then none else quote) cs)
    | none =>
      if c == '"' || c == '\'' then onFirst c (splitTopLevel depth (some c) cs)
      else if c == '(' || c == '[' then onFirst c (splitTopLevel (depth + 1) none cs)
      -- The depth may become negative, and commas then no longer divide.
      else if c == ')' || c == ']' then onFirst c (splitTopLevel (depth - 1) none cs)
      else if c == ',' && depth == 0 then [] :: splitTopLevel depth none cs
      else onFirst c (splitTopLevel depth none cs)

/-- The selectors of a list: its pieces between commas, trimmed, as far as they are not empty. -/
def splitList (list : String) : List String :=
  (((splitTopLevel 0 none list.toList).map trimChars).filter fun p => !p.isEmpty).map String.ofList

end EmailMarkup.Selector
