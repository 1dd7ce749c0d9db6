import EmailMarkup.Proofs.Markup.Agreement
import Mathlib.Logic.Relation

/-!
# Where reading breaks off

Reading breaks off in one case only. It has come to an element whose content is kept as text, and in
that content to the tag of another element of the same name, before the element is closed; that tag
is never ended, and the last character of the text takes more than one byte.

The case is described twice, along the two loops of reading: by the steps over a content (`Passes`),
and by the steps over a document (`Progress.Advances`). For each loop it is shown that a step leads
to the same outcome, so that the outcome is that of the place where no step is left.
-/

set_option autoImplicit false

namespace EmailMarkup.Markup

open EmailMarkup.Text EmailMarkup.Component
open Relation (ReflTransGen)

variable {cs rest : List Char} {p : Progress} {depth : Nat}

/-! ### Steps over a content -/

/-- A step over the content of an element, with the number of elements of its name that are open in
it: a character at which no tag of the name begins, the tag of another element of the name, or the
closing tag of one. -/
inductive Passes (name : List Char) : Nat × List Char → Nat × List Char → Prop
  | char {depth : Nat} {c : Char} {rest : List Char}
      (hopen : startsTag ('<' :: name) (c :: rest) = false)
      (hclose : startsTag ('<' :: '/' :: name) (c :: rest) = false) :
      Passes name (depth, c :: rest) (depth, rest)
  | opening {depth : Nat} {inside rest : List Char} (hinside : IsTagTail inside) :
      Passes name (depth, '<' :: (name ++ (inside ++ '>' :: rest)))
        (depthAfter (name ++ inside) depth, rest)
  | closing {depth : Nat} {inside rest : List Char} (hinside : IsTagTail inside) :
      Passes name (depth + 1, '<' :: '/' :: (name ++ (inside ++ '>' :: rest))) (depth, rest)

/-- The text begins with a tag of the name that is never ended, and ends with a character of several
bytes. -/
def Unended (name rest : List Char) : Prop :=
  ∃ inside, rest = '<' :: (name ++ inside) ∧ inside ≠ [] ∧ IsTagTail inside ∧
    ∀ c ∈ inside.getLast?, 1 < c.utf8Size

/-- In the content of an element of the name an unended tag of that name is come to. -/
def Entangled (name content : List Char) : Prop :=
  ∃ depth rest, ReflTransGen (Passes name) (0, content) (depth, rest) ∧ Unended name rest

section
variable {name : List Char}

/-- A step over a content only adds to what is captured. -/
theorem Passes.capture_eq (hname : IsName name) {next : Nat}
    (h : Passes name (depth, cs) (next, rest)) :
    ∃ front, capture name depth cs = (capture name next rest).map (onContent front) := by
  cases h with
  | char hopen hclose => exact ⟨_, capture_char depth hopen hclose⟩
  | opening hinside => exact ⟨_, capture_opening hname hinside depth rest⟩
  | closing hinside => exact ⟨_, capture_closing hname hinside (next + 1) rest⟩

theorem Passes.suffix {next : Nat} (h : Passes name (depth, cs) (next, rest)) : rest <:+ cs := by
  cases h with
  | char hopen hclose => exact List.suffix_cons _ _
  | @opening _ inside _ hinside => exact ⟨'<' :: (name ++ (inside ++ ['>'])), by simp⟩
  | @closing _ inside _ hinside => exact ⟨'<' :: '/' :: (name ++ (inside ++ ['>'])), by simp⟩

/-- A tag that begins at a bracket and is ended has a name and something behind it. -/
theorem exists_isTagTail {mark inside next : List Char} {c : Char} (hmark : '>' ∉ mark)
    (hstarts : startsTag ('<' :: mark) (c :: rest) = true)
    (hend : splitAtMark? ['>'] rest = some (inside, next)) :
    ∃ tail, c :: rest = '<' :: (mark ++ (tail ++ '>' :: next)) ∧ inside = mark ++ tail ∧
      IsTagTail tail := by
  obtain ⟨d, more, heq, hd⟩ := startsTag_iff.mp hstarts
  rw [List.cons_append, List.cons.injEq] at heq
  obtain ⟨rfl, hrest⟩ := heq
  obtain ⟨rfl, hinside⟩ := splitAtMark?_char_eq_some hend
  -- The end of the tag is not in the mark, so it comes behind it.
  obtain ⟨tail, rfl⟩ : mark <+: inside := by
    rcases List.prefix_or_prefix_of_prefix (List.prefix_append mark (d :: more))
      (hrest ▸ List.prefix_append inside ('>' :: next)) with hprefix | ⟨tail, rfl⟩
    · exact hprefix
    · rw [List.append_assoc, List.append_cancel_left_eq] at hrest
      cases tail with
      | nil => rw [List.append_nil]
      | cons e tail =>
        rw [List.cons_append, List.cons.injEq] at hrest
        exact absurd (by simp [← hrest.1]) hmark
  refine ⟨tail, by rw [List.append_assoc], rfl, fun hmem => hinside (by simp [hmem]), ?_⟩
  rw [List.append_assoc, List.append_cancel_left_eq] at hrest
  intro e he
  cases tail with
  | nil => cases he
  | cons f tail =>
    cases he
    rw [List.cons_append, List.cons.injEq] at hrest
    rw [hrest.1]
    exact hd

theorem unendedTag_eq_brokenCharacter :
    unendedTag cs = .brokenCharacter ↔ ∃ c ∈ cs.getLast?, 1 < c.utf8Size := by
  rw [unendedTag]
  cases cs.getLast? with
  | none => simp
  | some c =>
    have hpos := c.utf8Size_pos
    by_cases hone : c.utf8Size = 1
    · simp [hone]
    · simp [hone]
      omega

/-- A tag without an end, at which the last character decides, is unended. -/
theorem unended_of_startsTag {c : Char} (hopen : startsTag ('<' :: name) (c :: rest) = true)
    (hend : splitAtMark? ['>'] rest = none) (hlast : unendedTag (c :: rest) = .brokenCharacter) :
    Unended name (c :: rest) := by
  obtain ⟨d, tail, heq, hd⟩ := startsTag_iff.mp hopen
  rw [List.cons_append, List.cons.injEq] at heq
  obtain ⟨rfl, rfl⟩ := heq
  have hfree := splitAtMark?_char_eq_none_iff.mp hend
  obtain ⟨last, hmem, hwide⟩ := unendedTag_eq_brokenCharacter.mp hlast
  refine ⟨d :: tail, rfl, List.cons_ne_nil d tail,
    ⟨fun hmem => hfree (by simp [hmem]), fun e he => by cases he; exact hd⟩, ?_⟩
  intro e he
  rw [← List.cons_append, List.getLast?_append, Option.mem_def.mp he] at hmem
  cases hmem
  exact hwide

/-- Capturing breaks off at an unended tag. -/
theorem Unended.capture_eq (hname : IsName name) (h : Unended name rest) (depth : Nat) :
    capture name depth rest = .error .brokenCharacter := by
  obtain ⟨inside, rfl, hne, hinside, hlast⟩ := h
  obtain ⟨c, tail, rfl⟩ := List.exists_cons_of_ne_nil hne
  have hopen : startsTag ('<' :: name) ('<' :: (name ++ c :: tail)) = true :=
    startsTag_iff.mpr ⟨c, tail, rfl, hinside.2 c rfl⟩
  have hclose := startsTag_closing_of_isName hname (c :: tail)
  have hnone : splitAtMark? ['>'] (name ++ c :: tail) = none := by
    rw [splitAtMark?_char_eq_none_iff, List.mem_append, not_or]
    exact ⟨hname.notMem (by decide), hinside.1⟩
  have hbroken : unendedTag ('<' :: (name ++ c :: tail)) = .brokenCharacter := by
    obtain ⟨last, hmem⟩ := Option.isSome_iff_exists.mp
      (List.getLast?_isSome.mpr (List.cons_ne_nil c tail))
    refine unendedTag_eq_brokenCharacter.mpr ⟨last, ?_, hlast last hmem⟩
    rw [← List.cons_append, List.getLast?_append, hmem]
    rfl
  rw [capture_cons, hclose, hopen, hnone, ← hbroken]
  rfl

/-- Where capturing breaks off, an unended tag has been come to. -/
theorem exists_unended_of_capture (hname : IsName name)
    (h : capture name depth cs = .error .brokenCharacter) :
    ∃ next rest, ReflTransGen (Passes name) (depth, cs) (next, rest) ∧ Unended name rest := by
  induction hlength : cs.length using Nat.strong_induction_on generalizing cs depth with
  | _ length ih =>
  subst hlength
  -- A step leads to a shorter rest, which breaks off as well.
  have hstep : ∀ next rest, Passes name (depth, cs) (next, rest) → rest.length < cs.length →
      ∃ last tail, ReflTransGen (Passes name) (depth, cs) (last, tail) ∧ Unended name tail := by
    intro next rest hpasses hshorter
    obtain ⟨front, heq⟩ := hpasses.capture_eq hname
    rw [heq, map_eq_error_iff] at h
    obtain ⟨last, tail, hreach, htail⟩ := ih rest.length hshorter h rfl
    exact ⟨last, tail, .head hpasses hreach, htail⟩
  cases cs with
  | nil =>
    rw [capture] at h
    cases h
  | cons c rest =>
    rw [capture_cons] at h
    split at h
    · rename_i hclose
      split at h
      · cases h
      · rename_i inside next hend
        obtain ⟨tail, heq, -, htail⟩ := exists_isTagTail
          (by simp [hname.notMem (show isNameChar '>' = false by decide)]) hclose hend
        cases depth with
        | zero => cases h
        | succ depth =>
          rw [heq] at hstep ⊢
          exact hstep depth next (.closing htail) (by simp; omega)
    · rename_i hclose
      split at h
      · rename_i hopen
        split at h
        · rename_i hend
          exact ⟨depth, _, .refl, unended_of_startsTag hopen hend (Except.error.inj h)⟩
        · rename_i inside next hend
          obtain ⟨tail, heq, rfl, htail⟩ := exists_isTagTail (hname.notMem (by decide)) hopen hend
          rw [heq] at hstep ⊢
          exact hstep _ next (.opening htail) (by simp; omega)
      · rename_i hopen
        exact hstep depth rest (.char (by simpa using hopen) (by simpa using hclose)) (by simp)

/-- Capturing breaks off exactly where an unended tag is come to. -/
theorem capture_broken_iff (hname : IsName name) :
    capture name depth cs = .error .brokenCharacter ↔
      ∃ next rest, ReflTransGen (Passes name) (depth, cs) (next, rest) ∧ Unended name rest := by
  refine ⟨exists_unended_of_capture hname, ?_⟩
  rintro ⟨next, rest, hreach, hrest⟩
  generalize hplace : (depth, cs) = place at hreach
  induction hreach using ReflTransGen.head_induction_on generalizing depth cs with
  | refl =>
    cases hplace
    exact hrest.capture_eq hname _
  | @head place between hpasses _ ih =>
    subst hplace
    obtain ⟨front, heq⟩ := hpasses.capture_eq hname
    rw [heq, map_eq_error_iff]
    exact ih rfl

end

/-! ### Steps over a document -/

section
variable (registry : Registry) (locate : List Char → Position)

/-- No fault among attributes is a break. -/
theorem readAttributes_ne_brokenCharacter (start : Position) (tag : String)
    (attributes : Attributes) (cs : List Char) :
    (readAttributes locate start tag attributes cs).map Front.pair ≠ .error .brokenCharacter := by
  induction hlength : cs.length using Nat.strong_induction_on generalizing cs attributes with
  | _ length ih =>
  subst hlength
  intro h
  rw [pair_readAttributes] at h
  split at h
  · cases h
  · cases h
  · cases h
  · rename_i c more _ _ htail
    split at h
    · cases h
    · rename_i hname
      simp only at h
      split at h
      · cases h
      · rename_i value next hvalue
        exact ih next.length (of_readAssigned htail hname hvalue).2 _ next rfl h

/-- The text begins with the tag of an element whose content is kept as text, and that content is
entangled. -/
def EntangledElement (cs : List Char) : Prop :=
  ∃ name tail attributes content spec, cs = '<' :: (name ++ tail) ∧ IsName name ∧
    (∀ c ∈ tail.head?, isNameChar c = false) ∧
    (readAttributes locate (locate cs) (String.ofList name) ∅ tail).map Front.pair =
      .ok ((attributes, false), content) ∧
    registry.get? (String.ofList name) = some spec ∧ spec.captures = true ∧ Entangled name content

theorem readElement_eq_brokenCharacter {start : Position} {name content : List Char}
    (hname : IsName name) {attributes : Attributes} {single : Bool} :
    readElement registry locate start name attributes single content = .error .brokenCharacter ↔
      single = false ∧ ∃ spec, registry.get? (String.ofList name) = some spec ∧
        spec.captures = true ∧ Entangled name content := by
  rw [Entangled, ← capture_broken_iff hname, readElement]
  cases registry.get? (String.ofList name) with
  | none => simp
  | some spec =>
    cases single with
    | true => simp
    | false =>
      cases hcaptures : spec.captures with
      | false => simp [hcaptures]
      | true =>
        cases capture name 0 content with
        | ok captured => simp [hcaptures]
        | error fault =>
          cases fault with
          | neverClosed => simp [hcaptures]
          | unterminated rest => simp [hcaptures]
          | brokenCharacter => simp [hcaptures]

/-- What begins with a bracket cannot be read exactly if it is such an element. -/
theorem readMarked_eq_brokenCharacter :
    (readMarked registry locate (locate ('<' :: cs)) cs).map Front.pair =
        .error .brokenCharacter ↔ EntangledElement registry locate ('<' :: cs) := by
  constructor
  · intro h
    rw [pair_readMarked] at h
    split at h
    · rw [map_eq_error_iff, pair_readComment] at h
      split at h
      · cases h
      · cases h
    · rw [pair_skipDeclaration] at h
      split at h
      · cases h
      · cases h
    · rw [pair_skipDeclaration] at h
      split at h
      · cases h
      · cases h
    · rw [map_eq_error_iff, pair_readClosing] at h
      split at h
      · cases h
      · cases h
    · rw [map_eq_error_iff, pair_readOpening] at h
      split at h
      · cases h
      · rename_i hempty
        have hname := isName_nameOf hempty
        cases hread : (readAttributes locate (locate ('<' :: cs)) (String.ofList (nameOf cs)) ∅
            (afterName cs)).map Front.pair with
        | error failure =>
          rw [hread] at h
          cases h
          exact absurd hread (readAttributes_ne_brokenCharacter locate _ _ _ _)
        | ok read =>
          obtain ⟨⟨attributes, single⟩, content⟩ := read
          rw [hread] at h
          obtain ⟨rfl, spec, hspec, hcaptures, hcontent⟩ :=
            (readElement_eq_brokenCharacter registry locate hname).mp h
          exact ⟨nameOf cs, afterName cs, attributes, content, spec,
            by rw [nameOf_append_afterName], hname, head?_afterName cs, hread, hspec, hcaptures,
            hcontent⟩
  · rintro ⟨name, tail, attributes, content, spec, heq, hname, htail, hread, hspec, hcaptures,
      hcontent⟩
    cases heq
    have hopening : (readOpening registry locate (locate ('<' :: (name ++ tail)))
        (name ++ tail)).map Front.pair = .error .brokenCharacter := by
      rw [pair_readOpening, nameOf_append hname htail, afterName_append hname htail,
        if_neg (by simpa using hname.1), hread]
      exact (readElement_eq_brokenCharacter registry locate hname).mpr
        ⟨rfl, spec, hspec, hcaptures, hcontent⟩
    obtain ⟨c, more, rfl, hc⟩ := hname.exists_cons
    rw [List.cons_append] at hopening ⊢
    rw [pair_readMarked_name registry locate _ hc, hopening]
    rfl

end

namespace Progress

section
variable (registry : Registry) (locate : List Char → Position) (keep : Bool)

/-- A step of reading: the front of the text is read and taken in. -/
inductive Advances : Progress × List Char → Progress × List Char → Prop
  | marked {p next : Progress} {cs rest : List Char} {item? : Option Item}
      (hread : (readMarked registry locate (locate ('<' :: cs)) cs).map Front.pair =
        .ok (item?, rest))
      (htake : p.take keep (item?.map fun item => { item, position := locate ('<' :: cs) }) =
        .ok next) :
      Advances (p, '<' :: cs) (next, rest)
  | text {p next : Progress} {c : Char} {cs : List Char} (hc : c ≠ '<')
      (htake : p.take keep (readText locate c cs hc).value = .ok next) :
      Advances (p, c :: cs) (next, (c :: cs).dropWhile (· ≠ '<'))

variable {registry locate keep}

/-- A step of reading leads to the same result. -/
theorem Advances.scan_eq {next : Progress}
    (h : Advances registry locate keep (p, cs) (next, rest)) :
    p.scan registry locate keep cs = next.scan registry locate keep rest := by
  cases h with
  | marked hread htake =>
    rw [scan_marked, hread]
    show (p.take keep _ >>= _) = _
    rw [htake]
    rfl
  | text hc htake =>
    rw [scan_text registry locate keep p hc, htake]
    rfl

theorem Advances.suffix {next : Progress} (h : Advances registry locate keep (p, cs) (next, rest)) :
    rest <:+ cs ∧ rest.length < cs.length := by
  cases h with
  | marked hread htake =>
    have hrest := (of_readMarked registry locate _ hread).1
    exact ⟨hrest.trans (List.suffix_cons _ _), Nat.lt_succ_of_le hrest.length_le⟩
  | text hc htake =>
    exact ⟨List.dropWhile_suffix _, (readText locate _ _ hc).shorter⟩

/-- What an item can fail with is told with a position. -/
theorem exists_malformed_of_take {i? : Option Placed} {failure : Failure}
    (h : p.take keep i? = .error failure) :
    ∃ position fault, failure = .malformed position fault := by
  cases i? with
  | none => cases h
  | some i =>
    obtain ⟨item, position⟩ := i
    cases item with
    | text content =>
      cases p with
      | before => cases h; exact ⟨_, _, rfl⟩
      | inside o outer => cases h
      | after root => cases h; exact ⟨_, _, rfl⟩
    | comment source => cases h
    | opening tag attributes =>
      cases p with
      | before => cases h
      | inside o outer => cases h
      | after root => cases h; exact ⟨_, _, rfl⟩
    | whole tag attributes content =>
      cases p with
      | before => cases h
      | inside o outer => cases h
      | after root => cases h; exact ⟨_, _, rfl⟩
    | closing tag =>
      cases p with
      | before => cases h; exact ⟨_, _, rfl⟩
      | inside o outer =>
        replace h : (if o.tag = tag then Except.ok (attach o.close outer) else _) =
          Except.error failure := h
        split at h
        · cases h
        · cases h; exact ⟨_, _, rfl⟩
      | after root => cases h; exact ⟨_, _, rfl⟩

/-- A break that comes after an item was taken in. -/
theorem exists_take_of_broken {i? : Option Placed} {f : Progress → Except Failure Node}
    (h : p.take keep i? >>= f = .error .brokenCharacter) : ∃ next, p.take keep i? = .ok next := by
  cases htake : p.take keep i? with
  | ok next => exact ⟨next, rfl⟩
  | error failure =>
    obtain ⟨position, fault, rfl⟩ := exists_malformed_of_take htake
    rw [htake] at h
    cases h

theorem finish_ne_brokenCharacter (p : Progress) : p.finish ≠ .error .brokenCharacter := by
  cases p with
  | before | inside o outer | after root => exact fun h => nomatch h

/-- Where reading breaks off, it has come to an entangled element. -/
theorem exists_entangled_of_scan (h : p.scan registry locate keep cs = .error .brokenCharacter) :
    ∃ next rest, ReflTransGen (Advances registry locate keep) (p, cs) (next, rest) ∧
      EntangledElement registry locate rest := by
  induction hlength : cs.length using Nat.strong_induction_on generalizing cs p with
  | _ length ih =>
  subst hlength
  have hstep : ∀ next rest, Advances registry locate keep (p, cs) (next, rest) →
      ∃ last tail, ReflTransGen (Advances registry locate keep) (p, cs) (last, tail) ∧
        EntangledElement registry locate tail := by
    intro next rest hadvances
    rw [hadvances.scan_eq] at h
    obtain ⟨last, tail, hreach, htail⟩ := ih rest.length hadvances.suffix.2 h rfl
    exact ⟨last, tail, .head hadvances hreach, htail⟩
  cases cs with
  | nil =>
    rw [scan_nil] at h
    exact absurd h p.finish_ne_brokenCharacter
  | cons c cs =>
    by_cases hc : c = '<'
    · subst hc
      rw [scan_marked] at h
      cases hread : (readMarked registry locate (locate ('<' :: cs)) cs).map Front.pair with
      | error failure =>
        rw [hread] at h
        cases h
        exact ⟨p, _, .refl, (readMarked_eq_brokenCharacter registry locate).mp hread⟩
      | ok read =>
        rw [hread] at h
        obtain ⟨next, htake⟩ := exists_take_of_broken h
        exact hstep next read.2 (.marked hread htake)
    · rw [scan_text registry locate keep p hc] at h
      obtain ⟨next, htake⟩ := exists_take_of_broken h
      exact hstep next _ (.text hc htake)

/-- Reading breaks off exactly where it comes to an entangled element. -/
theorem scan_broken_iff :
    p.scan registry locate keep cs = .error .brokenCharacter ↔
      ∃ next rest, ReflTransGen (Advances registry locate keep) (p, cs) (next, rest) ∧
        EntangledElement registry locate rest := by
  refine ⟨exists_entangled_of_scan, ?_⟩
  rintro ⟨next, rest, hreach, hrest⟩
  generalize hplace : (p, cs) = place at hreach
  induction hreach using ReflTransGen.head_induction_on generalizing p cs with
  | refl =>
    cases hplace
    obtain ⟨tail, rfl⟩ : ∃ tail, rest = '<' :: tail := by
      obtain ⟨name, tail, -, -, -, rfl, -⟩ := hrest
      exact ⟨_, rfl⟩
    rw [scan_marked, (readMarked_eq_brokenCharacter registry locate).mpr hrest]
    rfl
  | @head place between hadvances _ ih =>
    subst hplace
    rw [hadvances.scan_eq]
    exact ih rfl

end

end Progress

/-! ### The end of the text -/

/-- Steps that each leave an end of the text leave one together. -/
theorem suffix_of_reflTransGen {σ : Type} {step : σ × List Char → σ × List Char → Prop}
    (hstep : ∀ {s t cs rest}, step (s, cs) (t, rest) → rest <:+ cs) {place last : σ × List Char}
    (h : ReflTransGen step place last) : last.2 <:+ place.2 := by
  induction h with
  | refl => exact List.suffix_rfl
  | tail _ hlast ih => exact (hstep hlast).trans ih

/-- An entangled content ends with a character of several bytes. -/
theorem Entangled.wide {name content : List Char} (h : Entangled name content) :
    ∃ c ∈ content.getLast?, 1 < c.utf8Size := by
  obtain ⟨depth, rest, hreach, inside, rfl, hne, -, hlast⟩ := h
  obtain ⟨front, hfront⟩ : '<' :: (name ++ inside) <:+ content :=
    suffix_of_reflTransGen Passes.suffix hreach
  obtain ⟨c, hc⟩ := Option.isSome_iff_exists.mp (List.getLast?_isSome.mpr hne)
  have hcontent : content.getLast? = inside.getLast? := by
    rw [← hfront, ← List.cons_append, ← List.append_assoc, List.getLast?_append_of_ne_nil _ hne]
  exact ⟨c, hcontent.trans hc, hlast c hc⟩

/-- A document in which reading comes to an entangled element. -/
def BreaksOff (registry : Registry) (keepComments : Bool) (markup : String) : Prop :=
  ∃ next rest, ReflTransGen (Progress.Advances registry (.ofRest markup.toList)
      (keepComments && registry.has "mj-raw")) (.before, markup.toList) (next, rest) ∧
    EntangledElement registry (.ofRest markup.toList) rest

/-- Such a document ends with a character of several bytes. -/
theorem BreaksOff.wide {registry : Registry} {keepComments : Bool} {markup : String}
    (h : BreaksOff registry keepComments markup) :
    ∃ c ∈ markup.toList.getLast?, 1 < c.utf8Size := by
  obtain ⟨next, rest, hreach, name, tail, attributes, content, spec, rfl, -, -, hread, -, -,
    hcontent⟩ := h
  obtain ⟨c, hc, hwide⟩ := hcontent.wide
  have hne : content ≠ [] := by
    rintro rfl
    cases hc
  have hsuffix : content <:+ markup.toList := by
    have htail : content <:+ '<' :: (name ++ tail) :=
      (of_readAttributes _ _ hread).1.trans ⟨'<' :: name, rfl⟩
    exact htail.trans (suffix_of_reflTransGen (fun hadvances => hadvances.suffix.1) hreach)
  obtain ⟨front, hfront⟩ := hsuffix
  refine ⟨c, ?_, hwide⟩
  rw [← hfront, List.getLast?_append_of_ne_nil _ hne]
  exact hc

/-- Reading by byte offsets ends for every text, in one step more than the text has characters, and
gives what reading gives. It breaks off, because the text is to be cut where it cannot be, exactly
if it comes to an entangled element; then the last character of the text takes several bytes. -/
theorem read_breaks_off_iff (registry : Registry) (keepComments : Bool) (markup : String) :
    Offset.read registry keepComments (markup.length + 1) markup =
        Offset.ended (Node.read registry keepComments markup) ∧
      (Node.read registry keepComments markup = .error .brokenCharacter ↔
        BreaksOff registry keepComments markup) ∧
      (BreaksOff registry keepComments markup →
        ∃ c ∈ markup.toList.getLast?, 1 < c.utf8Size) := by
  refine ⟨Offset.read_eq registry keepComments (Nat.lt_succ_self _), ?_, BreaksOff.wide⟩
  rw [Node.read_eq_scan]
  exact Progress.scan_broken_iff

/-- A text in whose element another one of its name begins, and that ends with a wide character. -/
def entangledText : String :=
  "<mj-text><mj-text é"

theorem entangledText_breaks_off :
    Node.read .core true entangledText = .error .brokenCharacter ∧
      Offset.read .core true (entangledText.length + 1) entangledText =
        Offset.ended (.error .brokenCharacter) := by
  have hread : Node.read .core true entangledText = .error .brokenCharacter := by
    with_unfolding_all rfl
  exact ⟨hread, by rw [Offset.read_eq _ _ (Nat.lt_succ_self _), hread]⟩

end EmailMarkup.Markup
