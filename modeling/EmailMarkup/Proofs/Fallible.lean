import Mathlib.Data.List.Forall2

/-!
# Computations that can fail

Resolving attributes, setting up a body and reading markup all run step after step until one step
fails. Here is said once when such a run succeeds (`ok_mapM_iff`, `ok_foldlM_iff`) and what its
results come from (`exists_of_bind`, `forall₂_of_mapM`).

Two runs are compared step by step. A run is the image of another one if each step is
(`foldlM_map_of_steps`). `Subsumes` compares two computations, the first of which may fail more
often; if each step of a run subsumes that of another one, so does the run.
-/

set_option autoImplicit false

namespace EmailMarkup

variable {α β ε σ : Type}

/-- A computation fails exactly if it does not succeed. -/
theorem exists_error_iff {x : Except ε α} : (∃ e, x = .error e) ↔ ¬ ∃ a, x = .ok a := by
  cases x with
  | error e | ok a => simp

/-- A result is taken over exactly if there is one. -/
theorem ok_map_iff {x : Except ε α} {f : α → β} :
    (∃ b, x.map f = .ok b) ↔ ∃ a, x = .ok a := by
  cases x with
  | error e | ok a => simp [Except.map]

/-- A result that is taken over comes from one. -/
theorem exists_of_map {x : Except ε α} {f : α → β} {b : β} (h : x.map f = .ok b) :
    ∃ a, x = .ok a ∧ f a = b := by
  cases x with
  | error e => cases h
  | ok a => exact ⟨a, rfl, Except.ok.inj h⟩

theorem map_eq_error_iff {x : Except ε α} {f : α → β} {e : ε} :
    x.map f = .error e ↔ x = .error e := by
  cases x with
  | error e' | ok a => simp [Except.map]

/-- Two steps succeed only if the first does, and the second on its result. -/
theorem exists_of_bind {x : Except ε α} {f : α → Except ε β} {b : β}
    (h : x >>= f = .ok b) : ∃ a, x = .ok a ∧ f a = .ok b := by
  cases x with
  | error failure => cases h
  | ok a => exact ⟨a, rfl, h⟩

/-- Two steps succeed exactly if the first does, and the second on its result. -/
theorem ok_bind_iff {x : Except ε α} {f : α → Except ε β} :
    (∃ b, x >>= f = .ok b) ↔ ∃ a, x = .ok a ∧ ∃ b, f a = .ok b := by
  constructor
  · rintro ⟨b, h⟩
    obtain ⟨a, ha, hb⟩ := exists_of_bind h
    exact ⟨a, ha, b, hb⟩
  · rintro ⟨a, rfl, b, hb⟩
    exact ⟨b, hb⟩

/-! ### Traversals -/

/-- What comes out of a traversal is, one by one, what the step gives. -/
theorem forall₂_of_mapM {f : α → Except ε β} {xs : List α} {ys : List β}
    (h : xs.mapM f = .ok ys) : List.Forall₂ (fun x y => f x = .ok y) xs ys := by
  induction xs generalizing ys with
  | nil =>
    cases h
    exact .nil
  | cons x xs ih =>
    rw [List.mapM_cons] at h
    obtain ⟨z, hz, h⟩ := exists_of_bind h
    obtain ⟨zs, hzs, h⟩ := exists_of_bind h
    cases h
    exact .cons hz (ih hzs)

/-- What comes out of a traversal comes from one of the things that were traversed. -/
theorem exists_of_mem_mapM {f : α → Except ε β} {xs : List α} {ys : List β}
    (h : xs.mapM f = .ok ys) {y : β} (hy : y ∈ ys) : ∃ x ∈ xs, f x = .ok y := by
  have hall := forall₂_of_mapM h
  clear h
  induction hall with
  | nil => cases hy
  | cons hhead _ ih =>
    rcases List.mem_cons.mp hy with rfl | hy
    · exact ⟨_, List.mem_cons_self, hhead⟩
    · obtain ⟨x, hx, hfx⟩ := ih hy
      exact ⟨x, List.mem_cons_of_mem _ hx, hfx⟩

/-- A traversal succeeds exactly if its step succeeds everywhere. -/
theorem ok_mapM_iff {f : α → Except ε β} {xs : List α} :
    (∃ ys, xs.mapM f = .ok ys) ↔ ∀ x ∈ xs, ∃ y, f x = .ok y := by
  induction xs with
  | nil => simp [pure, Except.pure]
  | cons x xs ih =>
    rw [List.mapM_cons, ok_bind_iff, List.forall_mem_cons, ← ih]
    constructor
    · rintro ⟨y, hy, h⟩
      obtain ⟨ys, hys, -⟩ := ok_bind_iff.mp h
      exact ⟨⟨y, hy⟩, ys, hys⟩
    · rintro ⟨⟨y, hy⟩, ys, hys⟩
      exact ⟨y, hy, ok_bind_iff.mpr ⟨ys, hys, y :: ys, rfl⟩⟩

/-! ### Runs -/

/-- A run succeeds exactly if every step does, when it does not depend on the state whether a step
succeeds. -/
theorem ok_foldlM_iff {f : σ → α → Except ε σ} {good : α → Prop}
    (hstep : ∀ s x, (∃ t, f s x = .ok t) ↔ good x) {xs : List α} (s : σ) :
    (∃ t, xs.foldlM f s = .ok t) ↔ ∀ x ∈ xs, good x := by
  induction xs generalizing s with
  | nil => simp [pure, Except.pure]
  | cons x xs ih =>
    rw [List.foldlM_cons, ok_bind_iff, List.forall_mem_cons, ← hstep s x]
    constructor
    · rintro ⟨t, ht, hrest⟩
      exact ⟨⟨t, ht⟩, (ih t).mp hrest⟩
    · rintro ⟨⟨t, ht⟩, hrest⟩
      exact ⟨t, ht, (ih t).mpr hrest⟩

/-! ### Two runs -/

/-- A run is the image of another one if each step is, on the states that the steps keep to. -/
theorem foldlM_map_of_steps {τ : Type} {f : σ → α → Except ε σ} {g : τ → α → Except ε τ} {h : σ → τ}
    {kept : σ → Prop} {xs : List α}
    (hstep : ∀ s, kept s → ∀ x ∈ xs, g (h s) x = (f s x).map h)
    (hkept : ∀ s, kept s → ∀ x ∈ xs, ∀ t, f s x = .ok t → kept t) {s : σ} (hs : kept s) :
    xs.foldlM g (h s) = (xs.foldlM f s).map h := by
  induction xs generalizing s with
  | nil => rfl
  | cons x xs ih =>
    have hx := List.mem_cons_self (a := x) (l := xs)
    rw [List.foldlM_cons, List.foldlM_cons, hstep s hs x hx]
    cases hnext : f s x with
    | error e => rfl
    | ok next =>
      exact ih (fun t ht y hy => hstep t ht y (List.mem_cons_of_mem x hy))
        (fun t ht y hy => hkept t ht y (List.mem_cons_of_mem x hy)) (hkept s hs x hx next hnext)

/-- Whatever the second computation gives, the first one gives too. -/
def Subsumes (y x : Except ε α) : Prop :=
  ∀ a, x = .ok a → y = .ok a

theorem Subsumes.refl (x : Except ε α) : Subsumes x x :=
  fun _ h => h

theorem Subsumes.bind {x y : Except ε α} {f g : α → Except ε β} (hxy : Subsumes y x)
    (hfg : ∀ a, Subsumes (g a) (f a)) : Subsumes (y >>= g) (x >>= f) := by
  intro b hb
  obtain ⟨a, ha, hfa⟩ := exists_of_bind hb
  rw [hxy a ha]
  exact hfg a b hfa

theorem Subsumes.map {x y : Except ε α} (hxy : Subsumes y x) (f : α → β) :
    Subsumes (y.map f) (x.map f) := by
  intro b hb
  obtain ⟨a, ha, rfl⟩ := exists_of_map hb
  rw [hxy a ha]
  rfl

theorem Subsumes.mapM {f g : α → Except ε β} (hfg : ∀ x, Subsumes (g x) (f x)) (xs : List α) :
    Subsumes (xs.mapM g) (xs.mapM f) := by
  induction xs with
  | nil => exact .refl _
  | cons x xs ih =>
    rw [List.mapM_cons, List.mapM_cons]
    exact (hfg x).bind fun _ => ih.bind fun _ => .refl _

theorem Subsumes.foldlM {f g : σ → α → Except ε σ} (hfg : ∀ s x, Subsumes (g s x) (f s x))
    (xs : List α) (s : σ) : Subsumes (xs.foldlM g s) (xs.foldlM f s) := by
  induction xs generalizing s with
  | nil => exact .refl _
  | cons x xs ih =>
    rw [List.foldlM_cons, List.foldlM_cons]
    exact (hfg s x).bind ih

end EmailMarkup
