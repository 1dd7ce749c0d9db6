import EmailMarkup.Proofs.Fallible
import EmailMarkup.Proofs.Text
import EmailMarkup.Selector.Reader

/-!
# What the readers of selectors do

The readers of selectors return what they read together with a proof that the rest is no longer.
Here each of them is given an equation without that proof. Conditions are read one by one, by the
same step every time: `readSimple?` is that step, and `pair_readSimples` the equation of the loop.
The same is done for the compounds of a selector (`readParts_eq`).
-/

set_option autoImplicit false

namespace EmailMarkup.Selector

open EmailMarkup.Text

/-- What was read and what is left. -/
def Read.pair {α : Type} {cs : List Char} (r : Read α cs) : α × List Char :=
  (r.value, r.rest)

/-! ### Conditions -/

/-- An attribute condition behind the name of the attribute. -/
def readTest (name : String) (cs : List Char) : Except Reason (Simple × List Char) :=
  match cs with
  | ']' :: rest => .ok (.attribute name .present, rest)
  | cs => do
    let (test, rest) ← readComparison cs
    let (value, rest) ← readTestValue (trimLeft rest)
    match trimLeft rest with
    | ']' :: next => .ok (.attribute name (test value), next)
    | _ => .error (.expected ']')

theorem pair_readAttribute (cs : List Char) :
    (readAttribute cs).map Read.pair =
      if (ident (trimLeft cs)).isEmpty then .error .emptyAttributeName
      else readTest (ident (trimLeft cs)) (trimLeft (afterIdent (trimLeft cs))) := by
  unfold readAttribute
  simp only
  split
  · rfl
  · split
    · rename_i h _
      conv_rhs => rw [h]
      rfl
    · rename_i hclose
      rw [readTest]
      · split
        · rename_i h
          conv_rhs => rw [h]
          rfl
        · rename_i test rest h
          conv_rhs => rw [h]
          show _ = readTestValue (trimLeft rest) >>= _
          split
          · rename_i h
            conv_rhs => rw [h]
            rfl
          · rename_i value rest' h
            conv_rhs => rw [h]
            show _ = match trimLeft rest' with
              | ']' :: next => Except.ok (Simple.attribute _ (test value), next)
              | _ => Except.error (Reason.expected ']')
            split
            · rename_i h
              conv_rhs => rw [h]
              rfl
            · rename_i hend
              generalize hl : Except.map Read.pair _ = left
              split
              · rename_i next h
                exact absurd h (hend next)
              · exact hl.symm
      · intro next h
        exact hclose next (h ▸ htail) h (proof_irrel_heq _ _)

/-- A negation behind its name. -/
def readNegation (source : String) (cs : List Char) : Except Fault (Simple × List Char) :=
  match readArgument cs with
  | .error e => .error (.invalid source e)
  | .ok (argument, next) => do
    let inner ← (readCompound (String.ofList argument) argument).map Read.pair
    if inner.1.isEmpty || !inner.2.isEmpty then .error (.invalid source .notCompound)
    else .ok (.negation inner.1, next)

/-- A condition with a colon behind its name. -/
def readNamed (source name : String) (cs : List Char) : Except Fault (Simple × List Char) :=
  if name == "not" then readNegation source cs
  else (readPseudoClass source name cs).map Read.pair

/-- The condition at the start of a text, if there is one, and what follows it. -/
def readSimple? (source : String) (cs : List Char) : Except Fault (Option (Simple × List Char)) :=
  match cs with
  | '#' :: rest =>
    if (ident rest).isEmpty then .error (.invalid source .emptyId)
    else .ok (some (.id (ident rest), afterIdent rest))
  | '.' :: rest =>
    if (ident rest).isEmpty then .error (.invalid source .emptyClass)
    else .ok (some (.className (ident rest), afterIdent rest))
  | '[' :: rest =>
    match (readAttribute rest).map Read.pair with
    | .error e => .error (.invalid source e)
    | .ok read => .ok (some read)
  | ':' :: rest =>
    if rest.head? == some ':' then .error (.dynamic source)
    else (readNamed source (lower (ident rest)) (afterIdent rest)).map some
  | _ => .ok none

/-- Conditions are read one by one. -/
def readOn (source : String) (cs : List Char) :
    Option (Simple × List Char) → Except Fault (List Simple × List Char)
  | none => .ok ([], cs)
  | some (s, rest) =>
    ((readSimples source rest).map Read.pair).map fun read => (s :: read.1, read.2)

/-- What is read behind a condition goes behind it. -/
theorem map_pair_cons (s : Simple) {cs ds : List Char} (x : Except Fault (Read (List Simple) ds))
    (hbound : ∀ more : Read (List Simple) ds, more.rest.length ≤ cs.length) :
    (x >>= fun more => pure
        { value := s :: more.value, rest := more.rest, bound := hbound more }).map
        (@Read.pair _ cs) =
      (x.map Read.pair).map fun read => (s :: read.1, read.2) := by
  cases x with
  | error e | ok more => rfl

theorem pair_readSimples (source : String) (cs : List Char) :
    (readSimples source cs).map Read.pair = readSimple? source cs >>= readOn source cs := by
  unfold readSimples
  split
  iterate 2
    rename_i rest
    rw [readSimple?]
    by_cases h : (ident rest).isEmpty = true
    · rw [if_pos h, if_pos h]
      rfl
    · rw [if_neg h, if_neg h]
      exact map_pair_cons _ _ _
  · rename_i rest
    rw [readSimple?]
    cases readAttribute rest with
    | error e => rfl
    | ok first => exact map_pair_cons first.value _ _
  · rename_i rest
    rw [readSimple?]
    simp only
    split
    · rfl
    · rw [readNamed]
      split
      · rw [readNegation]
        split
        · rename_i h
          conv_rhs => rw [h]
          rfl
        · rename_i argument next h
          conv_rhs => rw [h]
          simp only [readCompound]
          cases readSimples (String.ofList argument) (readHead argument).2 with
          | error e => rfl
          | ok inner =>
            show Except.map Read.pair (if _ then _ else _) =
              Except.map some (if (((readHead argument).1.toList ++ inner.value).isEmpty ||
                !inner.rest.isEmpty) = true then _ else _) >>= readOn source (':' :: rest)
            split
            · rfl
            · exact map_pair_cons (.negation ((readHead argument).1.toList ++ inner.value)) _ _
      · cases readPseudoClass source (lower (ident rest)) (afterIdent rest) with
        | error e => rfl
        | ok first => exact map_pair_cons first.value _ _
  · rename_i hid hclass hattribute hcolon
    rw [readSimple?]
    · rfl
    · exact hid
    · exact hclass
    · exact hattribute
    · exact hcolon

/-! ### Compounds and selectors -/

theorem pair_readCompound (source : String) (cs : List Char) :
    (readCompound source cs).map Read.pair =
      ((readSimples source (readHead cs).2).map Read.pair).map fun read =>
        ((readHead cs).1.toList ++ read.1, read.2) := by
  unfold readCompound
  simp only
  cases readSimples source (readHead cs).2 with
  | error e | ok simples => rfl

/-- What comes of a selector once a compound of it was read. -/
def readFurther (source : String) (before : List (Compound × Combinator))
    (read : Compound × List Char) : Except Fault Selector :=
  if read.1.isEmpty then
    .error (.invalid source (match read.2 with
      | c :: _ => .unexpected c
      | [] => .expectedSelector))
  else match trimLeft read.2 with
    | [] => .ok { subject := read.1, context := before.map Prod.swap }
    | c :: rest =>
      match combinatorOf? c with
      | some k => readParts source ((read.1, k) :: before) (trimLeft rest)
      | none =>
        if (c :: rest).length < read.2.length then
          readParts source ((read.1, .descendant) :: before) (c :: rest)
        else .error (.invalid source (.unexpected c))

theorem readParts_eq (source : String) (before : List (Compound × Combinator)) (cs : List Char) :
    readParts source before cs =
      (readCompound source cs).map Read.pair >>= readFurther source before := by
  unfold readParts
  cases readCompound source cs with
  | error e => rfl
  | ok compound =>
    show (if compound.value.isEmpty = true then _ else _) =
      (if compound.value.isEmpty = true then _ else _)
    split
    · rfl
    · simp only
      split
      · rename_i h
        rw [show trimLeft compound.pair.2 = [] from h]
        rfl
      · rename_i c rest h
        rw [show trimLeft compound.pair.2 = c :: rest from h]
        simp only
        cases combinatorOf? c with
        | some k => rfl
        | none =>
          simp only [h]
          rfl

end EmailMarkup.Selector
