import EmailMarkup.Proofs.Fallible
import EmailMarkup.Schema.Resolve

/-!
# When attributes can be resolved

Nothing that an element inherits can make resolving fail, whatever the head says. What can is an
attribute that is written on the element itself, at the strict level only
(`result_resolve_ok_iff`). What is reported on the way is about attributes
(`aboutAttributes_resolve`).

The loop over the attributes of the element stops at the first that is refused, so the statement is
about all of them at once: `isSome_failure?_takeOwn` is proved by induction over them, from any
resolution that has not failed yet, and what was inherited before is one such resolution.
-/

set_option autoImplicit false

namespace EmailMarkup.Schema

open EmailMarkup.Markup

/-- An attribute is written on the element, other than its classes, with a value that the schema
does not take. -/
def Refuses (s : Schema) (n : Node) : Prop :=
  ∃ a ∈ n.attributes.entries, a.1 ≠ "mj-class" ∧ ∃ expected, s.check a.1 a.2 = .invalid expected

/-! ### Inheriting -/

@[simp]
theorem Resolution.failure?_set (r : Resolution) (name value : String) :
    (r.set name value).failure? = r.failure? := rfl

@[simp]
theorem Resolution.failure?_report (r : Resolution) (d : Diagnostic) :
    (r.report d).failure? = r.failure? := rfl

theorem failure?_inherit (s : Schema) (level : Level) (source : String) (r : Resolution)
    (entry : String × String) : (s.inherit level source r entry).failure? = r.failure? := by
  unfold inherit
  split
  · exact r.failure?_set entry.1 entry.2
  · split
    · exact r.failure?_report _
    · exact r.failure?_set entry.1 entry.2

/-- A step that leaves the failure alone may be repeated. -/
theorem failure?_foldl {α : Type} {f : Resolution → α → Resolution}
    (hstep : ∀ r x, (f r x).failure? = r.failure?) (xs : List α) (r : Resolution) :
    (xs.foldl f r).failure? = r.failure? := by
  induction xs generalizing r with
  | nil => rfl
  | cons x xs ih => rw [List.foldl_cons, ih, hstep]

theorem failure?_inheritAll (s : Schema) (level : Level) (source : String) (r : Resolution)
    (attributes : Option Attributes) :
    (s.inheritAll level source r attributes).failure? = r.failure? := by
  unfold inheritAll
  split
  · exact failure?_foldl (s.failure?_inherit level source) _ r
  · rfl

/-- What comes from the head makes nothing fail. -/
theorem failure?_inheritHead (s : Schema) (level : Level) (head : HeadState) (n : Node)
    (r : Resolution) : (s.inheritHead level head n r).failure? = r.failure? := by
  have hclasses : ∀ r : Resolution,
      ((classesOf n).foldl (s.inheritClass level head) r).failure? = r.failure? :=
    failure?_foldl (fun r name => s.failure?_inheritAll level name r _) _
  have htags : ∀ r : Resolution,
      ((classesOf n).foldl (s.inheritClassTag level head) r).failure? = r.failure? :=
    failure?_foldl (fun r name => s.failure?_inheritAll level name r _) _
  unfold inheritHead
  simp only
  split
  · rw [htags, hclasses, failure?_inheritAll, failure?_inheritAll]
  · rw [Resolution.failure?_set, htags, hclasses, failure?_inheritAll, failure?_inheritAll]

/-! ### The element itself -/

/-- Of the attributes on the element, exactly one that is refused at the strict level ends the
search. -/
theorem isSome_failure?_takeOwn (s : Schema) (level : Level) (line : Nat) (r : Resolution)
    (hr : r.failure? = none) (entries : List (String × String)) :
    (s.takeOwn level line r entries).failure?.isSome = true ↔
      level = .strict ∧ ∃ a ∈ entries, a.1 ≠ "mj-class" ∧
        ∃ expected, s.check a.1 a.2 = .invalid expected := by
  fun_induction takeOwn s level line r entries with
  | case1 r => simp [hr]
  | case2 r value rest ih =>
    rw [ih hr]
    simp
  | case3 r name value rest hname hskip ih =>
    rw [ih hr]
    simp [hskip]
  | case4 r name value rest hname hskip hcheck ih | case5 r name value rest hname hskip hcheck ih =>
    rw [ih hr]
    simp [hcheck]
  | case6 r name value rest hname hskip expected hcheck hstrict =>
    simp only [Option.isSome_some, true_iff]
    exact ⟨hstrict, (name, value), List.mem_cons_self, hname, expected, hcheck⟩
  | case7 r name value rest hname hskip expected hcheck hstrict ih =>
    rw [ih hr]
    simp [hstrict]

/-- A resolution has a result exactly if nothing ended it, and then the result is what it found. -/
theorem Resolution.result_eq_ok_iff {r : Resolution} {m : Attributes} {reports : List Diagnostic} :
    r.result = .ok (m, reports) ↔ r.failure? = none ∧ r.attributes = m ∧ r.reports = reports := by
  unfold Resolution.result
  cases r.failure? with
  | none | some failure => simp

/-- Resolving the attributes of an element succeeds unless the level is strict and the schema refuses
an attribute on the element. -/
theorem result_resolve_ok_iff (s : Schema) (level : Level) (head? : Option HeadState) (n : Node) :
    (∃ a, (s.resolve level head? n).result = .ok a) ↔ ¬ (level = .strict ∧ s.Refuses n) := by
  have hfailure : (s.resolve level head? n).failure?.isSome = true ↔
      level = .strict ∧ s.Refuses n := by
    cases head? with
    | none => exact s.isSome_failure?_takeOwn level n.line _ rfl n.attributes.entries
    | some head =>
      exact s.isSome_failure?_takeOwn level n.line _ (s.failure?_inheritHead level head n _)
        n.attributes.entries
  simp [← hfailure, Resolution.result_eq_ok_iff]

/-! ### Reports -/

/-- The reports are about attributes that are not declared or have values of wrong types. -/
def Resolution.AboutAttributes (r : Resolution) : Prop :=
  ∀ d ∈ r.reports, d.kind = .unknownAttribute ∨ d.kind = .invalidAttribute

theorem Resolution.AboutAttributes.set {r : Resolution} (h : r.AboutAttributes)
    (name value : String) : (r.set name value).AboutAttributes :=
  h

theorem Resolution.AboutAttributes.report {r : Resolution} (h : r.AboutAttributes) {d : Diagnostic}
    (hd : d.kind = .unknownAttribute ∨ d.kind = .invalidAttribute) :
    (r.report d).AboutAttributes := by
  intro d' hd'
  rcases List.mem_append.mp hd' with hold | hnew
  · exact h d' hold
  · rw [List.mem_singleton.mp hnew]
    exact hd

/-- A step that reports on attributes may be repeated. -/
theorem aboutAttributes_foldl {α : Type} {f : Resolution → α → Resolution}
    (hstep : ∀ r x, r.AboutAttributes → (f r x).AboutAttributes) (xs : List α) {r : Resolution}
    (h : r.AboutAttributes) : (xs.foldl f r).AboutAttributes := by
  induction xs generalizing r with
  | nil => exact h
  | cons x xs ih => exact ih (hstep r x h)

theorem aboutAttributes_inheritAll (s : Schema) (level : Level) (source : String) {r : Resolution}
    (attributes : Option Attributes) (h : r.AboutAttributes) :
    (s.inheritAll level source r attributes).AboutAttributes := by
  unfold inheritAll
  split
  · refine aboutAttributes_foldl (fun r entry hr => ?_) _ h
    unfold inherit
    split
    · exact hr.set entry.1 entry.2
    · split
      · exact hr.report (.inr rfl)
      · exact hr.set entry.1 entry.2
  · exact h

theorem aboutAttributes_inheritHead (s : Schema) (level : Level) (head : HeadState) (n : Node)
    {r : Resolution} (h : r.AboutAttributes) :
    (s.inheritHead level head n r).AboutAttributes := by
  have hall := s.aboutAttributes_inheritAll level "mj-all" (head.tagAttributes.get? "mj-all") h
  have htag := s.aboutAttributes_inheritAll level "mj-attributes" (head.tagAttributes.get? s.tag)
    hall
  have hclasses := aboutAttributes_foldl
    (fun r name hr => s.aboutAttributes_inheritAll level name
      ((head.classes.get? name).map fun a => a.erase "css-class") hr) (classesOf n) htag
  have htags := aboutAttributes_foldl
    (fun r name hr => s.aboutAttributes_inheritAll level name
      ((head.classTags.get? name).bind fun table => table.get? s.tag) hr) (classesOf n) hclasses
  unfold inheritHead
  simp only
  split
  · exact htags
  · exact htags.set _ _

theorem aboutAttributes_takeOwn (s : Schema) (level : Level) (line : Nat) {r : Resolution}
    (h : r.AboutAttributes) (entries : List (String × String)) :
    (s.takeOwn level line r entries).AboutAttributes := by
  fun_induction takeOwn s level line r entries with
  | case1 r => exact h
  | case2 r value rest ih => exact ih h
  | case3 r name value rest hname hskip ih | case4 r name value rest hname hskip hcheck ih =>
    exact ih (h.set name value)
  | case5 r name value rest hname hskip hcheck ih => exact ih (h.report (.inl rfl))
  | case6 r name value rest hname hskip expected hcheck hstrict => exact h
  | case7 r name value rest hname hskip expected hcheck hstrict ih =>
    exact ih ((h.report (.inr rfl)).set name value)

/-- Resolving the attributes of an element reports on attributes only. -/
theorem aboutAttributes_resolve (s : Schema) (level : Level) (head? : Option HeadState) (n : Node) :
    (s.resolve level head? n).AboutAttributes := by
  have hstart : Resolution.AboutAttributes { attributes := s.defaults, reports := [] } := nofun
  cases head? with
  | none => exact s.aboutAttributes_takeOwn level n.line hstart n.attributes.entries
  | some head =>
    exact s.aboutAttributes_takeOwn level n.line (s.aboutAttributes_inheritHead level head n hstart)
      n.attributes.entries

end EmailMarkup.Schema
