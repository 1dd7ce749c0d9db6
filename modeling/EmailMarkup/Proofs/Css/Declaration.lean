import EmailMarkup.Css.Declaration
import EmailMarkup.Proofs.Css.Component

/-!
# Where declarations stand

Declarations are read one after the other: behind a semicolon outside all blocks they are read as on
their own (`declarationsOf_append`), and the first of them stands between its name and a semicolon
or the end (`Declares`). Its value is made up of components, up to its mark or up to the gaps at its
end (`readValue_split`).

The semicolon must be a token outside all blocks: one in a string or in brackets is part of a value
and divides nothing. `EmailMarkup.Proofs.Css.Local` says when it is a token.
-/

set_option autoImplicit false

namespace EmailMarkup.Css

open EmailMarkup.Text

variable {cs : List Component} {d : Declaration}

/-! ### Declarations one after the other -/

/-- What follows the components that are dropped. -/
theorem dropThrough_suffix (p : Component → Bool) (cs : List Component) : dropThrough p cs <:+ cs :=
  (List.drop_suffix _ _).trans (List.dropWhile_suffix _)

/-- Dropping ends at a semicolon at the latest. -/
theorem dropThrough_append {p : Component → Bool} (hp : p (.token semicolon) = true)
    (cs : List Component) :
    (∃ rest, rest <:+ cs ∧ ∀ ds, dropThrough p (cs ++ .token semicolon :: ds) =
      rest ++ .token semicolon :: ds) ∨
    ∀ ds, dropThrough p (cs ++ .token semicolon :: ds) = ds := by
  induction cs with
  | nil =>
    refine .inr fun ds => ?_
    rw [List.nil_append, dropThrough, List.dropWhile_cons_of_neg (by simp [hp])]
    rfl
  | cons c cs ih =>
    cases hc : p c with
    | true =>
      refine .inl ⟨cs, List.suffix_cons _ _, fun ds => ?_⟩
      rw [List.cons_append, dropThrough, List.dropWhile_cons_of_neg (by simp [hc])]
      rfl
    | false =>
      have hstep (ds : List Component) : dropThrough p (c :: ds) = dropThrough p ds := by
        rw [dropThrough, List.dropWhile_cons_of_pos (by simp [hc]), dropThrough]
      obtain ⟨rest, hrest, heq⟩ | heq := ih
      · exact .inl ⟨rest, hrest.trans (List.suffix_cons _ _), fun ds => by
          rw [List.cons_append, hstep, heq]⟩
      · exact .inr fun ds => by rw [List.cons_append, hstep, heq]

/-- What the first component does: it is passed over, it drops what follows up to a semicolon at the
latest, or it is a name that may be declared. -/
theorem declarationsOf_cases (c : Component) :
    (∀ rest, declarationsOf (c :: rest) = declarationsOf rest) ∨
    (∃ p : Component → Bool, p (.token semicolon) = true ∧
      ∀ rest, declarationsOf (c :: rest) = declarationsOf (dropThrough p rest)) ∨
    (∃ t name, c = .token t ∧ t.kind = .ident name ∧ ∀ rest, declarationsOf (c :: rest) =
      (declarationOf? name (rest.takeWhile fun c => !c.isKind .semicolon)).toList ++
        declarationsOf (dropThrough (Component.isKind .semicolon) rest)) := by
  have hsemicolon : Component.isKind .semicolon (.token semicolon) = true := rfl
  cases c with
  | block =>
    refine .inr (.inl ⟨_, hsemicolon, fun rest => ?_⟩)
    rw [declarationsOf]
  | token t =>
    obtain ⟨kind, source⟩ := t
    cases kind with
    | blank => exact .inl fun rest => by rw [declarationsOf]
    | comment => exact .inl fun rest => by rw [declarationsOf]
    | semicolon => exact .inl fun rest => by rw [declarationsOf]
    | closing bracket =>
      cases bracket with
      | curly => exact .inl fun rest => by rw [declarationsOf]
      | _ =>
        refine .inr (.inl ⟨_, hsemicolon, fun rest => ?_⟩)
        rw [declarationsOf]
    | atKeyword name =>
      have hends : endsAtRule (.token semicolon) = true := rfl
      exact .inr (.inl ⟨_, hends, fun rest => by rw [declarationsOf]⟩)
    | ident name => exact .inr (.inr ⟨_, name, rfl, rfl, fun rest => by rw [declarationsOf]⟩)
    | _ =>
      refine .inr (.inl ⟨_, hsemicolon, fun rest => ?_⟩)
      rw [declarationsOf]

/-- Behind a semicolon, declarations are read as on their own. -/
theorem declarationsOf_append (cs ds : List Component) :
    declarationsOf (cs ++ .token semicolon :: ds) =
      declarationsOf (cs ++ [.token semicolon]) ++ declarationsOf ds := by
  have hpass (ds : List Component) :
      declarationsOf (.token semicolon :: ds) = declarationsOf ds := by rw [declarationsOf]; rfl
  have hnone : declarationsOf [] = [] := by rw [declarationsOf]
  -- Some components are dropped unread, so the induction is on how many there are.
  induction hlength : cs.length using Nat.strong_induction_on generalizing cs with
  | _ n ih =>
  cases cs with
  | nil => rw [List.nil_append, List.nil_append, hpass, hpass, hnone, List.nil_append]
  | cons c cs =>
    have hdrop {p : Component → Bool} (hp : p (.token semicolon) = true) :
        declarationsOf (dropThrough p (cs ++ .token semicolon :: ds)) =
          declarationsOf (dropThrough p (cs ++ [.token semicolon])) ++ declarationsOf ds := by
      obtain ⟨rest, hrest, heq⟩ | heq := dropThrough_append hp cs
      · rw [heq, heq]
        exact ih _ (by rw [← hlength]; exact Nat.lt_succ_of_le hrest.length_le) rest rfl
      · rw [heq, heq, hnone, List.nil_append]
    rw [List.cons_append, List.cons_append]
    obtain hcase | ⟨p, hp, hcase⟩ | ⟨t, name, rfl, hkind, hcase⟩ := declarationsOf_cases c
    · rw [hcase, hcase]
      exact ih _ (by rw [← hlength]; exact Nat.lt_succ_self _) cs rfl
    · rw [hcase, hcase, hdrop hp]
    · have htake (ds : List Component) :
          (cs ++ .token semicolon :: ds).takeWhile (fun c => !c.isKind .semicolon) =
            cs.takeWhile fun c => !c.isKind .semicolon :=
        (span_append fun _ => by simp [Component.isKind, semicolon]).1
      rw [hcase, hcase, htake, htake, hdrop rfl, List.append_assoc]

/-- The first of the declarations among components is `d`, and `ds` follow it. It begins with its
name, and it goes on to a semicolon or to the end. -/
def Declares (cs : List Component) (d : Declaration) (ds : List Declaration) : Prop :=
  ∃ before t name segment behind, cs = before ++ .token t :: (segment ++ behind) ∧
    t.kind = .ident name ∧ (∀ c ∈ segment, c.isKind .semicolon = false) ∧
    declarationOf? name segment = some d ∧
    (behind = [] ∧ ds = [] ∨
      ∃ s after, behind = .token s :: after ∧ s.kind = .semicolon ∧ declarationsOf after = ds)

theorem Declares.of_suffix {rest : List Component} {ds : List Declaration}
    (h : Declares rest d ds) (hrest : rest <:+ cs) : Declares cs d ds := by
  obtain ⟨front, rfl⟩ := hrest
  obtain ⟨before, t, name, segment, behind, rfl, hfound⟩ := h
  exact ⟨front ++ before, t, name, segment, behind, by rw [List.append_assoc], hfound⟩

theorem declares_of_declarationsOf {ds : List Declaration} (h : declarationsOf cs = d :: ds) :
    Declares cs d ds := by
  induction hlength : cs.length using Nat.strong_induction_on generalizing cs with
  | _ n ih =>
  cases cs with
  | nil =>
    rw [declarationsOf] at h
    cases h
  | cons c cs =>
    have hlater {rest : List Component} (hrest : rest <:+ cs) (h : declarationsOf rest = d :: ds) :
        Declares (c :: cs) d ds :=
      (ih _ (by rw [← hlength]; exact Nat.lt_succ_of_le hrest.length_le) h rfl).of_suffix
        (hrest.trans (List.suffix_cons _ _))
    obtain hcase | ⟨p, -, hcase⟩ | ⟨t, name, rfl, hkind, hcase⟩ := declarationsOf_cases c
    · rw [hcase] at h
      exact hlater List.suffix_rfl h
    · rw [hcase] at h
      exact hlater (dropThrough_suffix _ _) h
    · rw [hcase] at h
      have happ := List.takeWhile_append_dropWhile (p := fun c => !c.isKind .semicolon) (l := cs)
      cases hfirst : declarationOf? name (cs.takeWhile fun c => !c.isKind .semicolon) with
      | none =>
        -- A name that declares nothing is dropped with all up to the semicolon.
        rw [hfirst] at h
        exact hlater (dropThrough_suffix _ _) h
      | some first =>
        rw [hfirst, Option.toList_some, List.singleton_append] at h
        obtain ⟨rfl, hds⟩ := List.cons.inj h
        refine ⟨[], t, name, _, _, by rw [List.nil_append, happ], hkind, ?_, hfirst, ?_⟩
        · intro c hc
          simpa using List.mem_takeWhile_imp hc
        · have hstop := List.head?_dropWhile_not (fun c => !c.isKind .semicolon) cs
          rw [dropThrough] at hds
          generalize cs.dropWhile (fun c => !c.isKind .semicolon) = behind at hds hstop
          cases behind with
          | nil =>
            rw [List.drop_nil, declarationsOf] at hds
            exact .inl ⟨rfl, hds.symm⟩
          | cons c after =>
            have hc : c.isKind .semicolon = true := by simpa using hstop
            cases c with
            | block => cases hc
            | token s => exact .inr ⟨s, after, rfl, by simpa [Component.isKind] using hc, hds⟩

/-! ### Values -/

/-- A value, what is left of its components, and the mark among these. -/
theorem readValue_split (pending : List Char) (cs : List Component) :
    ∃ vs ts, cs = vs ++ ts ∧
      (readValue pending cs).1 = (if vs = [] then [] else pending ++ sourceOf vs) ∧
      ((readValue pending cs).2 = false ∧ (∀ c ∈ ts, c.isGap = true) ∨
        (readValue pending cs).2 = true ∧ ∃ gaps mark rest, ts = gaps ++ mark :: rest ∧
          (∀ c ∈ gaps, c.isGap = true) ∧ mark.isKind (.delim '!') = true ∧
          atImportant rest = true) := by
  induction cs generalizing pending with
  | nil => exact ⟨[], [], rfl, rfl, .inl ⟨rfl, by simp⟩⟩
  | cons c cs ih =>
    rw [readValue]
    split
    · rename_i hgap
      obtain ⟨vs, ts, rfl, hvalue, hmark⟩ := ih (pending ++ c.source)
      -- A gap is part of the value only if more of the value follows.
      by_cases hvs : vs = []
      · subst hvs
        refine ⟨[], c :: ts, rfl, by rw [hvalue]; simp, ?_⟩
        obtain ⟨himportant, hall⟩ | ⟨himportant, gaps, mark, rest, rfl, hall, hrest⟩ := hmark
        · exact .inl ⟨himportant, List.forall_mem_cons.mpr ⟨hgap, hall⟩⟩
        · exact .inr ⟨himportant, c :: gaps, mark, rest, rfl,
            List.forall_mem_cons.mpr ⟨hgap, hall⟩, hrest⟩
      · refine ⟨c :: vs, ts, rfl, ?_, hmark⟩
        rw [hvalue, if_neg hvs, if_neg (List.cons_ne_nil _ _), sourceOf, List.append_assoc]
    · split
      · rename_i hmark
        rw [Bool.and_eq_true] at hmark
        exact ⟨[], c :: cs, rfl, rfl, .inr ⟨rfl, [], c, cs, rfl, by simp, hmark⟩⟩
      · obtain ⟨vs, ts, rfl, hvalue, hmark⟩ := ih []
        refine ⟨c :: vs, ts, rfl, ?_, hmark⟩
        simp only
        rw [hvalue, if_neg (List.cons_ne_nil _ _), sourceOf]
        split
        · rename_i hvs
          rw [hvs, sourceOf, List.append_nil]
          simp
        · simp

theorem exists_of_atImportant (h : atImportant cs = true) :
    ∃ gaps t name rest, cs = gaps ++ .token t :: rest ∧ (∀ c ∈ gaps, c.isGap = true) ∧
      t.kind = .ident name ∧ lower name = "important" := by
  unfold atImportant at h
  split at h
  · rename_i t rest hdrop
    split at h
    · rename_i name hkind
      exact ⟨_, t, name, rest, (of_dropWhile_eq_cons hdrop).1,
        fun c hc => List.mem_takeWhile_imp hc, hkind, by simpa using h⟩
    · cases h
  · cases h

theorem exists_of_declarationOf? {name : String} (h : declarationOf? name cs = some d) :
    ∃ gaps colon rest, cs = gaps ++ colon :: rest ∧ (∀ c ∈ gaps, c.isGap = true) ∧
      colon.isKind .colon = true ∧ d.property = lower name ∧
      d.value.toList = trimChars (readValue [] rest).1 ∧ d.value.toList ≠ [] ∧
      d.important = (readValue [] rest).2 := by
  unfold declarationOf? at h
  split at h
  · rename_i colon rest hdrop
    split at h
    · rename_i hcolon
      simp only at h
      split at h
      · cases h
      · rename_i hvalue
        cases h
        refine ⟨_, colon, rest, (of_dropWhile_eq_cons hdrop).1,
          fun c hc => List.mem_takeWhile_imp hc, hcolon, rfl, String.toList_ofList, ?_, rfl⟩
        rw [String.toList_ofList]
        simpa using hvalue
    · cases h
  · cases h

end EmailMarkup.Css
