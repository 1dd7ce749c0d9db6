import EmailMarkup.Proofs.Text
import EmailMarkup.Url.Policy
import Mathlib.Logic.Relation

/-!
# Disguised addresses

An address can be disguised: blanks and control characters may be put anywhere in it or taken out of
it, and letters may be written in either case. `Edit` is one such change, and a disguise is a run of
them. What a mail reader makes of an address is the same before and after (`Edit.seen_eq` for one
change, `seen_eq_of_edits` for a run).

A policy looks at nothing else (`scheme?_eq`). So it lets a disguised address through exactly if it
lets the plain one through, and a denied scheme is found wherever a mail reader would find it.
-/

set_option autoImplicit false

namespace EmailMarkup.Url

open EmailMarkup.Text Relation

/-! ### Disguises -/

/-- A character that a mail reader leaves out. -/
def isHidden (c : Char) : Bool :=
  isBlank c || isControl c

/-- One change that a mail reader does not see. -/
inductive Edit : List Char → List Char → Prop where
  | insert (front rest : List Char) {c : Char} (hidden : isHidden c = true) :
      Edit (front ++ rest) (front ++ c :: rest)
  | delete (front rest : List Char) {c : Char} (hidden : isHidden c = true) :
      Edit (front ++ c :: rest) (front ++ rest)
  /-- A letter is written in the other case. -/
  | recase (front rest : List Char) {c d : Char} (same : c.toLower = d.toLower) :
      Edit (front ++ c :: rest) (front ++ d :: rest)

/-- The address comes from another one by changes that a mail reader does not see. -/
def Disguises (disguised url : String) : Prop :=
  ReflTransGen Edit url.toList disguised.toList

/-- What a mail reader makes of an address: its characters that are not hidden, in lower case. -/
def seen (cs : List Char) : List Char :=
  lowerChars (cs.filter fun c => !isHidden c)

theorem seen_append (cs ds : List Char) : seen (cs ++ ds) = seen cs ++ seen ds := by
  simp [seen, lowerChars]

theorem seen_cons_of_hidden {c : Char} (h : isHidden c = true) (cs : List Char) :
    seen (c :: cs) = seen cs := by
  simp [seen, h]

theorem isHidden_toLower (c : Char) : isHidden c.toLower = isHidden c := by
  rw [isHidden, isBlank_toLower, isControl_toLower, isHidden]

/-- Whether a character is hidden, and what it is folded to, does not depend on its case. -/
theorem seen_cons_congr {c d : Char} (h : c.toLower = d.toLower) (cs : List Char) :
    seen (c :: cs) = seen (d :: cs) := by
  have hhidden : isHidden c = isHidden d := by
    rw [← isHidden_toLower c, h, isHidden_toLower]
  simp only [seen, List.filter_cons, hhidden]
  split
  · simp only [lowerChars, List.map_cons, h]
  · rfl

/-- One change leaves what a mail reader makes of an address. -/
theorem Edit.seen_eq {cs ds : List Char} (h : Edit cs ds) : seen ds = seen cs := by
  cases h with
  | insert front rest hidden | delete front rest hidden =>
    rw [seen_append, seen_append, seen_cons_of_hidden hidden]
  | recase front rest same => rw [seen_append, seen_append, seen_cons_congr same]

/-- A run of changes leaves what a mail reader makes of an address. -/
theorem seen_eq_of_edits {cs ds : List Char} (h : ReflTransGen Edit cs ds) : seen ds = seen cs := by
  induction h with
  | refl => rfl
  | tail _ hedit ih => exact hedit.seen_eq.trans ih

/-! ### What a policy looks at -/

/-- The scheme at the start of what a mail reader makes of an address. -/
def schemeSeen? : List Char → Option String
  | [] => none
  | c :: cs =>
    if c.isAlpha ∧ (cs.dropWhile isSchemeChar).head? = some ':' then
      some (String.ofList (c :: cs.takeWhile isSchemeChar))
    else none

theorem isSchemeChar_toLower (c : Char) : isSchemeChar c.toLower = isSchemeChar c := by
  unfold isSchemeChar
  rw [isAlphanum_toLower, toLower_beq (by decide), toLower_beq (by decide),
    toLower_beq (by decide)]

/-- The scheme is looked for in what a mail reader makes of the address. -/
theorem scheme?_eq (url : String) : scheme? url = schemeSeen? (seen url.toList) := by
  have hvisible : seen url.toList = (visible url).map Char.toLower := by
    simp only [seen, visible, isHidden, lowerChars, Bool.not_or]
  have hfold : isSchemeChar ∘ Char.toLower = isSchemeChar := funext isSchemeChar_toLower
  rw [hvisible, scheme?]
  cases visible url with
  | nil => rfl
  | cons c cs =>
    simp only [List.map_cons, schemeSeen?, isAlpha_toLower, List.dropWhile_map,
      List.takeWhile_map, hfold, List.head?_map, lowerChars]
    cases hrest : cs.dropWhile isSchemeChar with
    | nil => simp
    | cons d rest =>
      have hcolon : d.toLower = ':' ↔ d = ':' := by
        have := toLower_beq (d := ':') (by decide) d
        rwa [Bool.eq_iff_iff, beq_iff_eq, beq_iff_eq] at this
      by_cases hd : d = ':'
      · subst hd
        simp
      · simp [hd, hcolon]

/-- A policy tells addresses apart only if a mail reader does. -/
theorem accepts_congr (p : Policy) {url other : String}
    (h : seen other.toList = seen url.toList) : p.accepts other = p.accepts url := by
  rw [Policy.accepts, Policy.accepts, scheme?_eq, scheme?_eq, h]

/-! ### Denied schemes -/

/-- A letter and scheme characters before a colon are the scheme. -/
theorem schemeSeen?_append {c : Char} {cs : List Char} (hc : c.isAlpha = true)
    (hcs : ∀ d ∈ cs, isSchemeChar d = true) (rest : List Char) :
    schemeSeen? (c :: cs ++ ':' :: rest) = some (String.ofList (c :: cs)) := by
  obtain ⟨htake, hdrop⟩ := @span_of_forall _ _ cs (':' :: rest) hcs (by simp [isSchemeChar])
  rw [List.cons_append, schemeSeen?, hdrop, htake, if_pos ⟨hc, rfl⟩]

/-- Every denied scheme has the form of a scheme. -/
theorem exists_cons_of_denied {scheme : String} (h : scheme ∈ deniedSchemes) :
    ∃ c cs, scheme.toList = c :: cs ∧ c.isAlpha = true ∧ ∀ d ∈ cs, isSchemeChar d = true := by
  have hform : ∀ name ∈ deniedSchemes, name.toList.head?.any Char.isAlpha = true ∧
      name.toList.tail.all isSchemeChar = true := by
    decide +kernel
  obtain ⟨hhead, htail⟩ := hform scheme h
  cases hscheme : scheme.toList with
  | nil =>
    rw [hscheme] at hhead
    cases hhead
  | cons c cs =>
    rw [hscheme] at hhead htail
    exact ⟨c, cs, rfl, hhead, List.all_eq_true.mp htail⟩

/-- No policy lets an address through in which a mail reader sees a denied scheme. -/
theorem accepts_of_denied (p : Policy) {url scheme : String} (h : scheme ∈ deniedSchemes)
    (hseen : scheme.toList ++ [':'] <+: seen url.toList) : p.accepts url = false := by
  obtain ⟨rest, hrest⟩ := hseen
  obtain ⟨c, cs, hscheme, hc, hcs⟩ := exists_cons_of_denied h
  have hfound : scheme? url = some scheme := by
    rw [scheme?_eq, ← hrest, hscheme, List.append_assoc]
    show schemeSeen? (c :: cs ++ ':' :: rest) = some scheme
    rw [schemeSeen?_append hc hcs, ← hscheme, String.ofList_toList]
  have hdenied : deniedSchemes.contains scheme = true := List.contains_iff_mem.mpr h
  simp only [Policy.accepts, hfound, hdenied, Bool.not_true, Bool.false_and]

/-- Whatever schemes a policy is given, it turns away, with an error and with nothing left, every
address in which a mail reader sees a denied scheme, and a disguise does not change whether an
address is let through. -/
theorem policy_sees_through (names : List String) (url : String) :
    ((∃ scheme ∈ deniedSchemes, scheme.toList ++ [':'] <+: seen url.toList) →
      (Policy.ofSchemes names).accepts url = false ∧
        (Policy.ofSchemes names).check url = .error { url } ∧
        (Policy.ofSchemes names).clean url = "") ∧
    ∀ disguised, Disguises disguised url →
      (Policy.ofSchemes names).accepts disguised = (Policy.ofSchemes names).accepts url := by
  constructor
  · rintro ⟨scheme, hdenied, hseen⟩
    have haccepts := accepts_of_denied (Policy.ofSchemes names) hdenied hseen
    refine ⟨haccepts, ?_, ?_⟩
    · simp only [Policy.check, haccepts, Bool.false_eq_true, if_false]
    · simp only [Policy.clean, haccepts, Bool.false_eq_true, if_false]
  · intro disguised hdisguise
    exact accepts_congr _ (seen_eq_of_edits hdisguise)

/-- A script in disguise. -/
def disguisedScript : String :=
  " Java\tscript:run"

theorem disguisedScript_seen_through :
    "javascript".toList ++ [':'] <+: seen disguisedScript.toList ∧
      Disguises disguisedScript "javascript:run" ∧
      (Policy.ofSchemes ["JavaScript:", "https"]).accepts disguisedScript = false ∧
      (Policy.ofSchemes ["JavaScript:", "https"]).check disguisedScript =
        .error { url := disguisedScript } ∧
      (Policy.ofSchemes ["JavaScript:", "https"]).clean disguisedScript = "" ∧
      (Policy.ofSchemes ["JavaScript:", "https"]).accepts disguisedScript =
        (Policy.ofSchemes ["JavaScript:", "https"]).accepts "javascript:run" := by
  have hseen : "javascript".toList ++ [':'] <+: seen disguisedScript.toList :=
    ⟨"run".toList, by decide⟩
  -- Two blanks are put in, and a small letter becomes a capital.
  have hdisguise : Disguises disguisedScript "javascript:run" :=
    ((ReflTransGen.single (.insert [] "javascript:run".toList (by decide))).tail
      (.insert " java".toList "script:run".toList (by decide))).tail
        (.recase [' '] "ava\tscript:run".toList (by decide))
  obtain ⟨haccepts, hcheck, hclean⟩ :=
    (policy_sees_through ["JavaScript:", "https"] disguisedScript).1
      ⟨"javascript", by decide, hseen⟩
  exact ⟨hseen, hdisguise, haccepts, hcheck, hclean,
    (policy_sees_through _ _).2 _ hdisguise⟩

end EmailMarkup.Url
