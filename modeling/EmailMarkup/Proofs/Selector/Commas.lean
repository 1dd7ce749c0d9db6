import EmailMarkup.Selector.Reader
import Mathlib.Data.List.Basic

/-!
# Selector lists

A comma divides a selector list only where no bracket and no quote is open. What is open at a place
is an `Enclosure`, and a text from which one comes out as one went in, without a comma on the way
that would divide, is `Whole`. Whole texts joined by commas are cut where they were joined
(`splitTopLevel_intercalate`), however many brackets and quoted commas they hold. The depth of an
`Enclosure` is the integer that `splitTopLevel` counts with; `EmailMarkup.Selector.Reader` says why
a word of 32 bits would count alike.
-/

set_option autoImplicit false

namespace EmailMarkup.Selector

open EmailMarkup.Text

/-- What is open at a place of a text: how many brackets more were opened than closed, and the
quote. -/
structure Enclosure where
  depth : Int
  quote : Option Char
  deriving DecidableEq

namespace Enclosure

/-- Nothing is open. -/
def outside : Enclosure :=
  { depth := 0, quote := none }

/-- What is open after one more character. In quotes only the same quote counts; brackets of the two
kinds are counted together. -/
def next (e : Enclosure) (c : Char) : Enclosure :=
  match e.quote with
  | some q => if c = q then { e with quote := none } else e
  | none =>
    if c = '"' ∨ c = '\'' then { e with quote := some c }
    else if c = '(' ∨ c = '[' then { e with depth := e.depth + 1 }
    else if c = ')' ∨ c = ']' then { e with depth := e.depth - 1 }
    else e

/-- What is open behind a text. -/
def behind (e : Enclosure) (cs : List Char) : Enclosure :=
  cs.foldl next e

end Enclosure

open Enclosure

/-- No comma of a text stands where nothing is open, if the text begins at `e`. -/
def Undivided (e : Enclosure) (cs : List Char) : Prop :=
  ∀ k < cs.length, cs[k]? = some ',' → e.behind (cs.take k) ≠ outside

/-- A text that closes what it opens and has no comma outside of it. -/
def Whole (cs : List Char) : Prop :=
  outside.behind cs = outside ∧ Undivided outside cs

instance (cs : List Char) : Decidable (Whole cs) :=
  inferInstanceAs (Decidable (_ ∧ ∀ k < cs.length, _ → _ ≠ outside))

/-- A character that does not divide goes to the front of the first piece. -/
theorem splitTopLevel_cons {e : Enclosure} {c : Char} (h : c = ',' → e ≠ outside)
    (cs : List Char) :
    splitTopLevel e.depth e.quote (c :: cs) =
      onFirst c (splitTopLevel (e.next c).depth (e.next c).quote cs) := by
  obtain ⟨depth, quote⟩ := e
  cases quote with
  | some q => by_cases hc : c = q <;> simp [splitTopLevel, next, hc]
  | none =>
    have hdivide : ¬(c = ',' ∧ depth = 0) := by
      rintro ⟨rfl, rfl⟩
      exact h rfl rfl
    simp only [splitTopLevel, next, Bool.or_eq_true, Bool.and_eq_true, beq_iff_eq, if_neg hdivide]
    split_ifs <;> rfl

/-- An undivided text goes to the front of the first piece of what follows it. -/
theorem splitTopLevel_append {e : Enclosure} {front rest piece : List Char}
    {pieces : List (List Char)} (hfront : Undivided e front)
    (hrest : splitTopLevel (e.behind front).depth (e.behind front).quote rest = piece :: pieces) :
    splitTopLevel e.depth e.quote (front ++ rest) = (front ++ piece) :: pieces := by
  -- Each character is one step of the scan, so what is open has to vary.
  induction front generalizing e with
  | nil => exact hrest
  | cons c front ih =>
    have hc : c = ',' → e ≠ outside := fun hc => hfront 0 (by simp) (by simp [hc])
    have htail : Undivided (e.next c) front := fun k hk hcomma =>
      hfront (k + 1) (by simpa using hk) (by simpa using hcomma)
    rw [List.cons_append, splitTopLevel_cons hc, ih htail hrest]
    rfl

/-- Whole texts joined by commas are cut where they were joined. -/
theorem splitTopLevel_intercalate {texts : List (List Char)} (hne : texts ≠ [])
    (h : ∀ t ∈ texts, Whole t) : splitTopLevel 0 none ([','].intercalate texts) = texts := by
  induction texts with
  | nil => exact absurd rfl hne
  | cons t texts ih =>
    obtain ⟨ht, htexts⟩ := List.forall_mem_cons.mp h
    -- Behind a whole text nothing is open, so what follows is cut by itself.
    have hfirst {rest piece : List Char} {pieces : List (List Char)}
        (hrest : splitTopLevel 0 none rest = piece :: pieces) :
        splitTopLevel 0 none (t ++ rest) = (t ++ piece) :: pieces :=
      splitTopLevel_append ht.2 (by rw [ht.1]; exact hrest)
    cases texts with
    | nil => simpa using hfirst (show splitTopLevel 0 none [] = [[]] from rfl)
    | cons u texts =>
      have hcomma : splitTopLevel 0 none (',' :: [','].intercalate (u :: texts)) =
          [] :: u :: texts := congrArg ([] :: ·) (ih (List.cons_ne_nil _ _) htexts)
      rw [List.intercalate_cons_cons, List.append_assoc, List.singleton_append, hfirst hcomma,
        List.append_nil]

/-- A list of whole texts is split into these texts, trimmed, as far as they are not blank. -/
theorem splitList_intercalate (texts : List String) (h : ∀ t ∈ texts, Whole t.toList) :
    splitList (",".intercalate texts) = (texts.map trim).filter (· ≠ "") := by
  cases texts with
  -- Nothing to join gives one empty piece, which is dropped.
  | nil => rfl
  | cons t texts =>
    have hcut : splitTopLevel 0 none (",".intercalate (t :: texts)).toList =
        (t :: texts).map String.toList := by
      rw [String.toList_intercalate]
      exact splitTopLevel_intercalate (List.cons_ne_nil _ _) (List.forall_mem_map.mpr h)
    rw [splitList, hcut, List.map_map, List.filter_map, List.filter_map, List.map_map]
    refine congrArg _ (List.filter_congr fun u _ => ?_)
    rw [Bool.eq_iff_iff]
    simp [trim]

/-- Commas in quotes, in brackets and in brackets within brackets do not divide. -/
theorem enclosed_commas_kept :
    splitList "a, b > c ,[x=\"1,)2\"], ,:not(.a,:nth-child(2,n))" =
      ["a", "b > c", "[x=\"1,)2\"]", ":not(.a,:nth-child(2,n))"] :=
  splitList_intercalate ["a", " b > c ", "[x=\"1,)2\"]", " ", ":not(.a,:nth-child(2,n))"]
    (by decide)

end EmailMarkup.Selector
