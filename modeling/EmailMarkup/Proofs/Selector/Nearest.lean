import EmailMarkup.Proofs.Selector.Chain

/-!
# What matching misses

Matching does not find every element that a selector names. In `<a><b><b><c></c></b></b></a>` the
selector `a > b c` names the `c`, by way of the outer `b`; matching takes the inner `b`, which is
not just in an `a`, and gives up (`nested_missed`).

Two statements say how far this goes.

- `contextMatches_iff_chain` describes what matching accepts, for every selector: the elements for
  which there is a chain whose every place is the nearest that fits (`Combinator.Takes`).
- `exists_missed` shows that the condition under which matching finds every chain cannot be widened.
  Whatever combinators a selector has, if one of the pairs of `Combinator.mayLose` is among them,
  then some document has an element that a selector with these combinators names and matching
  misses.

The documents for the second are made from the combinators. A *trail* goes from an element one step
at a time, out or to the left, and `trailNodes` is a document with a given trail. A bad pair is
given one step too many: the nearest place is then not the one from which the trail goes on.
-/

set_option autoImplicit false

namespace EmailMarkup.Selector

open EmailMarkup.Html Relation

/-! ### The chain of nearest places -/

/-- Whether `q` is the nearest place that may stand for a compound to the left of `p`: any other is
related to `q` as `q` is to `p`. -/
def Combinator.Takes (k : Combinator) (compound : Compound) (p q : Place) : Prop :=
  k.Allows compound p q ∧ ∀ q', k.Allows compound p q' → q' = q ∨ k.Relates q q'

/-- No two places are each to the left of, or around, the other. -/
theorem Combinator.Relates.asymm {k : Combinator} {p q : Place} (h : k.Relates p q) :
    ¬ k.Relates q p := by
  intro hback
  cases k with
  | descendant =>
    exact notMem_walk_self Place.ancestors_eq p
      ((mem_walk_iff Place.ancestors_eq).mpr (TransGen.trans h hback))
  | child =>
    exact notMem_walk_self Place.ancestors_eq p
      ((mem_walk_iff Place.ancestors_eq).mpr (.head h (.single hback)))
  | nextSibling =>
    exact notMem_walk_self Place.preceding_eq p
      ((mem_walk_iff Place.preceding_eq).mpr (.head h (.single hback)))
  | subsequentSibling =>
    exact notMem_walk_self Place.preceding_eq p
      ((mem_walk_iff Place.preceding_eq).mpr (TransGen.trans h hback))

/-- The first place that fits, among those a combinator leads to, is the nearest one. -/
theorem find?_reach_iff {k : Combinator} {compound : Compound} {p q : Place} :
    (k.reach p).find? (fun q => allHold q compound) = some q ↔ k.Takes compound p q := by
  constructor
  · intro hfind
    exact ⟨allows_of_find? hfind, fun q' h => eq_or_relates_of_find? hfind h.1 h.2⟩
  · rintro ⟨hallows, hnearest⟩
    obtain ⟨r, hfind⟩ := exists_find?_of_allows hallows
    -- Of two nearest places each would be farther off than the other.
    rcases eq_or_relates_of_find? hfind hallows.1 hallows.2 with rfl | hfar
    · exact hfind
    · rcases hnearest r (allows_of_find? hfind) with rfl | hback
      · exact hfind
      · exact absurd hback hfar.asymm

/-- Matching succeeds exactly if there is a chain of nearest places. -/
theorem contextMatches_iff_chain {d : Document} {context : List (Combinator × Compound)}
    {p : Place} (hp : p ∈ d.places) :
    contextMatches context p = true ↔ Chain d Combinator.Takes context p := by
  induction context generalizing p with
  | nil => exact ⟨fun _ => .nil, fun _ => rfl⟩
  | cons part rest ih =>
    obtain ⟨k, compound⟩ := part
    rw [contextMatches_cons_iff]
    constructor
    · rintro ⟨q, hfind, hrest⟩
      have htakes := find?_reach_iff.mp hfind
      have hq := htakes.1.1.mem_places hp
      exact .cons hq htakes ((ih hq).mp hrest)
    · intro h
      obtain _ | @⟨_, _, _, _, q, hq, htakes, hrest⟩ := h
      exact ⟨q, find?_reach_iff.mpr htakes, (ih hq).mpr hrest⟩

/-! ### Trails -/

/-- Whether a combinator leads out of an element, and not to its siblings. -/
def Combinator.leadsOut (k : Combinator) : Bool :=
  match k with
  | .descendant | .child => true
  | .nextSibling | .subsequentSibling => false

/-- One step out or to the left. A step out is from an element with none before it. -/
def Combinator.Step (k : Combinator) (p q : Place) : Prop :=
  if k.leadsOut then p.parent? = some q ∧ p.previous? = none else p.previous? = some q

/-- The steps from `p` to `q`, each with the name of the element that it leads to. -/
inductive Trail : List (Combinator × String) → Place → Place → Prop where
  | nil {p : Place} : Trail [] p p
  | cons {k : Combinator} {name : String} {rest : List (Combinator × String)} {p q r : Place}
      (hstep : k.Step p q) (hname : q.tag.name = name) (hrest : Trail rest q r) :
      Trail ((k, name) :: rest) p r

/-- One trail after another is a trail. -/
theorem Trail.append {first second : List (Combinator × String)} {p q r : Place}
    (hfirst : Trail first p q) (hsecond : Trail second q r) : Trail (first ++ second) p r := by
  induction hfirst with
  | nil => exact hsecond
  | cons hstep hname _ ih => exact .cons hstep hname (ih hsecond)

/-- The first step of a trail. -/
theorem Trail.exists_of_cons {k : Combinator} {name : String} {rest : List (Combinator × String)}
    {p r : Place} (h : Trail ((k, name) :: rest) p r) :
    ∃ q, k.Step p q ∧ q.tag.name = name ∧ Trail rest q r := by
  cases h with
  | cons hstep hname hrest => exact ⟨_, hstep, hname, hrest⟩

/-- A trail can be parted anywhere. -/
theorem Trail.exists_of_append {first second : List (Combinator × String)} {p r : Place}
    (h : Trail (first ++ second) p r) : ∃ q, Trail first p q ∧ Trail second q r := by
  induction first generalizing p with
  | nil => exact ⟨p, .nil, h⟩
  | cons part first ih =>
    obtain ⟨_, hstep, hname, hrest⟩ := h.exists_of_cons
    obtain ⟨q, hfirst, hsecond⟩ := ih hrest
    exact ⟨q, .cons hstep hname hfirst, hsecond⟩

/-- A step is in the relation of its combinator. -/
theorem Combinator.Step.relates {k : Combinator} {p q : Place} (h : k.Step p q) :
    k.Relates p q := by
  cases k with
  | descendant => exact .single h.1
  | child => exact h.1
  | nextSibling => exact h
  | subsequentSibling => exact .single h

/-- A trail from an element of a document stays in the document. -/
theorem Trail.mem_places {trail : List (Combinator × String)} {d : Document} {p q : Place}
    (h : Trail trail p q) (hp : p ∈ d.places) : q ∈ d.places := by
  induction h with
  | nil => exact hp
  | cons hstep _ _ ih => exact ih (hstep.relates.mem_places hp)

/-- A place one step off is the first that the combinator leads to. -/
theorem Combinator.Step.find?_reach {k : Combinator} {p q : Place} (h : k.Step p q)
    {fits : Place → Bool} (hfits : fits q = true) : (k.reach p).find? fits = some q := by
  have hhead : ∃ rest, k.reach p = q :: rest := by
    cases k with
    | descendant =>
      refine ⟨q.ancestors, ?_⟩
      show p.ancestors = _
      rw [Place.ancestors_eq, h.1]
      rfl
    | child => exact ⟨[], congrArg Option.toList h.1⟩
    | nextSibling => exact ⟨[], congrArg Option.toList h⟩
    | subsequentSibling =>
      refine ⟨q.preceding, ?_⟩
      show p.preceding = _
      rw [Place.preceding_eq, h]
      rfl
  obtain ⟨rest, hrest⟩ := hhead
  rw [hrest, List.find?_cons_of_pos hfits]

/-- Puts nodes into an element, or an empty element before them. -/
def surround (nodes : List Node) (part : Combinator × String) : List Node :=
  if part.1.leadsOut then [.element (plainTag part.2) nodes]
  else .element (plainTag part.2) [] :: nodes

/-- Nodes with a trail that begins at an element `a`. -/
def trailNodes (trail : List (Combinator × String)) : List Node :=
  trail.foldl surround [.element (plainTag "a") []]

theorem trailNodes_concat (trail : List (Combinator × String)) (part : Combinator × String) :
    trailNodes (trail ++ [part]) = surround (trailNodes trail) part := by
  unfold trailNodes
  rw [List.foldl_append]
  rfl

/-- The nodes made for a trail have that trail, and it ends at the first of their elements. -/
theorem exists_trail (trail : List (Combinator × String)) (above : List Row)
    (before : List Element) :
    ∃ p ∈ placesAmong above before (trailNodes trail), ∃ q, Trail trail p q ∧
      q.row.before = before ∧ q.above = above := by
  -- The last step of the trail is the outermost part of the nodes.
  induction trail using List.reverseRecOn generalizing above before with
  | nil =>
    unfold trailNodes
    rw [List.foldl_nil, placesAmong]
    exact ⟨_, List.mem_cons_self, _, .nil, rfl, rfl⟩
  | append_singleton trail part ih =>
    obtain ⟨k, name⟩ := part
    rw [trailNodes_concat]
    unfold surround
    cases hk : k.leadsOut with
    | true =>
      rw [if_pos rfl, placesAmong]
      let row : Row :=
        { before, here := ⟨plainTag name, (trailNodes trail).isEmpty⟩, after := [] }
      obtain ⟨p, hp, q, htrail, hbefore, habove⟩ := ih (row :: above) []
      have hstep : k.Step q { row, above } := by
        unfold Combinator.Step Place.parent? Place.previous?
        rw [hk, hbefore, habove]
        exact ⟨rfl, rfl⟩
      exact ⟨p, List.mem_cons_of_mem _ (List.mem_append_left _ hp), { row, above },
        htrail.append (.cons hstep rfl .nil), rfl, rfl⟩
    | false =>
      rw [if_neg (by decide), placesAmong]
      let here : Element := ⟨plainTag name, true⟩
      obtain ⟨p, hp, q, htrail, hbefore, habove⟩ := ih above (here :: before)
      let r : Place := { q with row := { before, here, after := q.row.here :: q.row.after } }
      have hstep : k.Step q r := by
        unfold Combinator.Step Place.previous?
        rw [hk, hbefore]
        rfl
      exact ⟨p, List.mem_cons_of_mem _ (List.mem_append_right _ hp), r,
        htrail.append (.cons hstep rfl .nil), rfl, habove⟩

/-- Nodes made for a trail are read back as they are written. -/
theorem canonical_trailNodes {trail : List (Combinator × String)}
    (hnames : ∀ part ∈ trail, isContainerName part.2 = true) : Canonical (trailNodes trail) := by
  induction trail using List.reverseRecOn with
  | nil => exact .plain (by decide) .nil .nil
  | append_singleton trail part ih =>
    have hname := hnames part (List.mem_append_right _ List.mem_cons_self)
    have hinner := ih fun part' h => hnames part' (List.mem_append_left _ h)
    rw [trailNodes_concat]
    unfold surround
    split
    · exact .plain hname hinner .nil
    · exact .plain hname .nil hinner

/-- Some document has a given trail, whatever its names are. -/
theorem exists_read_trail (trail : List (Combinator × String))
    (hnames : ∀ part ∈ trail, isContainerName part.2 = true) :
    ∃ html, ∃ p ∈ (Document.read html).places, ∃ q, Trail trail p q := by
  obtain ⟨p, hp, q, htrail, -⟩ := exists_trail trail [] []
  refine ⟨Document.print { children := trailNodes trail }, p, ?_, q, htrail⟩
  rw [read_print (d := { children := trailNodes trail }) (canonical_trailNodes hnames)]
  exact hp

section Trail
variable {d : Document} {ks : List Combinator} {context : List (Combinator × Compound)}
  {p q : Place}

/-- The compound that fits every element. -/
def anything : Compound := [.universal]

/-- A chain goes on along a trail if its compounds fit everything. -/
theorem Trail.chain (htrail : Trail (ks.map (·, "a")) p q) (hp : p ∈ d.places)
    (hchain : Chain d Combinator.Allows context q) :
    Chain d Combinator.Allows (ks.map (·, anything) ++ context) p := by
  induction ks generalizing p with
  | nil =>
    cases htrail
    exact hchain
  | cons k ks ih =>
    obtain ⟨_, hstep, -, hrest⟩ := htrail.exists_of_cons
    have hmem := hstep.relates.mem_places hp
    exact .cons hmem ⟨hstep.relates, rfl⟩ (ih hrest hmem)

/-- Matching follows a trail as long as its compounds fit everything. -/
theorem Trail.contextMatches_append (htrail : Trail (ks.map (·, "a")) p q) :
    contextMatches (ks.map (·, anything) ++ context) p = contextMatches context q := by
  induction ks generalizing p with
  | nil =>
    cases htrail
    rfl
  | cons k ks ih =>
    obtain ⟨_, hstep, -, hrest⟩ := htrail.exists_of_cons
    rw [List.map_cons, List.cons_append, contextMatches, hstep.find?_reach rfl]
    exact ih hrest

end Trail

/-! ### A document for every bad pair -/

section Detour
variable {d : Document} {k next : Combinator} {context : List (Combinator × Compound)}
  {e b a x : Place}

/-- Two steps of the first combinator of a bad pair are still in its relation, so the chain may go
past the nearest place. -/
theorem chain_of_detour (hlose : k.mayLose next = true) (hfirst : k.Step e b) (hsecond : k.Step b a)
    (hthird : next.Step a x) (hx : x.tag.name = "x") (he : e ∈ d.places)
    (hchain : Chain d Combinator.Allows context x) :
    Chain d Combinator.Allows ((k, anything) :: (next, [.type "x"]) :: context) e := by
  have hfar : k.Relates e a := by
    cases k with
    | child | nextSibling => cases next <;> cases hlose
    | descendant | subsequentSibling => exact TransGen.trans hfirst.relates hsecond.relates
  have hfits : allHold x [.type "x"] = true := by
    simp [allHold, Simple.holds, hx]
  have ha := hfar.mem_places he
  exact .cons ha ⟨hfar, rfl⟩ (.cons (hthird.relates.mem_places ha) ⟨hthird.relates, hfits⟩ hchain)

/-- The nearest place is one from which the next combinator does not lead to an `x`. -/
theorem contextMatches_of_detour (hlose : k.mayLose next = true) (hfirst : k.Step e b)
    (hsecond : k.Step b a) (ha : a.tag.name = "a") :
    contextMatches ((k, anything) :: (next, [.type "x"]) :: context) e = false := by
  have hunfit : allHold a [.type "x"] = false := by
    simp only [allHold, Simple.holds, ha]
    decide
  have hnone : (next.reach b).find? (fun r => allHold r [.type "x"]) = none := by
    cases k with
    | child | nextSibling => cases next <;> cases hlose
    | descendant =>
      obtain ⟨hparent, hfirst⟩ := hsecond
      have hpreceding : b.preceding = [] := by
        rw [Place.preceding_eq, hfirst]
        rfl
      cases next with
      | descendant => cases hlose
      | child => simp [Combinator.reach, hparent, hunfit]
      | nextSibling => simp [Combinator.reach, hfirst]
      | subsequentSibling => simp [Combinator.reach, hpreceding]
    | subsequentSibling =>
      have hprevious : b.previous? = some a := hsecond
      cases next with
      | descendant => cases hlose
      | child => cases hlose
      | nextSibling => simp [Combinator.reach, hprevious, hunfit]
      | subsequentSibling => cases hlose
  rw [contextMatches, hfirst.find?_reach rfl]
  show contextMatches ((next, [.type "x"]) :: context) b = false
  rw [contextMatches, hnone]

end Detour

/-- If a pair of combinators may lose a chain, then some selector with these combinators names an
element that matching misses. -/
theorem exists_missed {ks : List Combinator} (h : ¬ Admissible ks) :
    ∃ (html : String) (s : Selector) (p : Place), p ∈ (Document.read html).places ∧
      s.context.map Prod.fst = ks ∧ Names (Document.read html) s p ∧ selects s p = false := by
  unfold Admissible at h
  rw [List.isChain_iff_forall_rel_of_append_cons_cons] at h
  push Not at h
  obtain ⟨k, next, pre, post, rfl, hlose⟩ := h
  replace hlose : k.mayLose next = true := eq_true_of_ne_false hlose
  have hnames : ∀ part ∈ pre.map (·, "a") ++
      (k, "a") :: (k, "a") :: (next, "x") :: post.map (·, "a"), isContainerName part.2 = true := by
    intro part hpart
    have hname : part.2 = "a" ∨ part.2 = "x" := by
      simp only [List.mem_append, List.mem_cons, List.mem_map] at hpart
      rcases hpart with ⟨_, _, rfl⟩ | rfl | rfl | rfl | ⟨_, _, rfl⟩ <;> simp
    rcases hname with h | h <;> rw [h] <;> decide
  -- The trail has one step of `k` more than the combinators ask for.
  obtain ⟨html, p, hp, last, htrail⟩ := exists_read_trail _ hnames
  obtain ⟨e, hpre, hrest⟩ := htrail.exists_of_append
  obtain ⟨b, hfirst, -, hrest⟩ := hrest.exists_of_cons
  obtain ⟨a, hsecond, ha, hrest⟩ := hrest.exists_of_cons
  obtain ⟨x, hthird, hx, hpost⟩ := hrest.exists_of_cons
  have he := hpre.mem_places hp
  have hmem : x ∈ (Document.read html).places :=
    hthird.relates.mem_places (hsecond.relates.mem_places (hfirst.relates.mem_places he))
  refine ⟨html, { subject := anything, context := pre.map (·, anything) ++
    (k, anything) :: (next, [.type "x"]) :: post.map (·, anything) }, p, hp, ?_, ⟨rfl, ?_⟩, ?_⟩
  · simp [Function.comp_def]
  · have hchain := hpost.chain hmem .nil
    rw [List.append_nil] at hchain
    exact hpre.chain hp (chain_of_detour hlose hfirst hsecond hthird hx he hchain)
  · unfold selects
    rw [hpre.contextMatches_append, contextMatches_of_detour hlose hfirst hsecond ha,
      Bool.and_false]

/-- What matching accepts, and what it may miss. It accepts an element exactly if the element fits
the subject and there is a chain of nearest places. And among selectors with the same combinators it
misses nothing that they name, in any document that is read, exactly if none of the combinators may
lose a chain at the next one. -/
theorem selects_iff_nearest_and_misses_none_iff (d : Document) (s : Selector) (p : Place)
    (hp : p ∈ d.places) :
    (selects s p = true ↔
      allHold p s.subject = true ∧ Chain d Combinator.Takes s.context p) ∧
    ((∀ (html : String) (t : Selector) (q : Place), q ∈ (Document.read html).places →
        t.context.map Prod.fst = s.context.map Prod.fst →
        Names (Document.read html) t q → selects t q = true) ↔
      Admissible (s.context.map Prod.fst)) := by
  refine ⟨?_, ?_, ?_⟩
  · unfold selects
    rw [Bool.and_eq_true, contextMatches_iff_chain hp]
  · intro hall
    by_contra hbad
    obtain ⟨html, t, q, hq, hks, hnames, hmissed⟩ := exists_missed hbad
    have hselects := hall html t q hq hks hnames
    rw [hmissed] at hselects
    cases hselects
  · rintro hkeeps html t q hq hks ⟨hsubject, hchain⟩
    rw [← hks] at hkeeps
    exact Bool.and_eq_true_iff.mpr ⟨hsubject, contextMatches_of_chain hkeeps hchain⟩

/-! ### An element in two of the same name -/

/-- The document `<a><b><b><c></c></b></b></a>`. -/
def nested : Document :=
  { children := [.element (plainTag "a") [.element (plainTag "b") [.element (plainTag "b")
      [.element (plainTag "c") []]]]] }

/-- An element without siblings. -/
def alone (name : String) (isEmpty : Bool) : Row :=
  { before := [], here := ⟨plainTag name, isEmpty⟩, after := [] }

/-- The place of the `c`. -/
def innermost : Place :=
  { row := alone "c" true, above := [alone "b" false, alone "b" false, alone "a" false] }

theorem read_nested : Document.read "<a><b><b><c></c></b></b></a>" = nested := by
  refine Eq.trans (congrArg Document.read (by decide +kernel)) (read_print (d := nested) ?_)
  exact .plain (by decide) (.plain (by decide) (.plain (by decide)
    (.plain (by decide) .nil .nil) .nil) .nil) .nil

theorem innermost_mem : innermost ∈ nested.places := by
  simp [innermost, alone, nested, Document.places, placesAmong, elementsAmong]

/-- With the combinators of `nested_missed` the nearest places may still be a chain, as they are
for `b > b c`. -/
theorem nested_nearest :
    innermost ∈ (Document.read "<a><b><b><c></c></b></b></a>").places ∧
      Chain (Document.read "<a><b><b><c></c></b></b></a>") Combinator.Takes
        [(.descendant, [.type "b"]), (.child, [.type "b"])] innermost := by
  rw [read_nested]
  have hselects := (selects_iff_nearest_and_misses_none_iff nested
    { subject := [.type "c"], context := [(.descendant, [.type "b"]), (.child, [.type "b"])] }
    innermost innermost_mem).1
  exact ⟨innermost_mem, (hselects.mp (by decide +kernel)).2⟩

/-- The selector `a > b c` names the `c` by way of the outer `b`, and matching misses it: it takes
the inner `b`, which is not just in an `a`. -/
theorem nested_missed :
    innermost ∈ (Document.read "<a><b><b><c></c></b></b></a>").places ∧
      Names (Document.read "<a><b><b><c></c></b></b></a>")
        { subject := [.type "c"]
          context := [(.descendant, [.type "b"]), (.child, [.type "a"])] } innermost ∧
      selects
        { subject := [.type "c"]
          context := [(.descendant, [.type "b"]), (.child, [.type "a"])] } innermost = false := by
  rw [read_nested]
  have hout : Combinator.Relates .descendant innermost
      { row := alone "b" false, above := [alone "a" false] } := .head rfl (.single rfl)
  have hparent : Combinator.Relates .child { row := alone "b" false, above := [alone "a" false] }
      { row := alone "a" false, above := [] } := rfl
  have houter := hout.mem_places innermost_mem
  refine ⟨innermost_mem, ⟨by decide +kernel, ?_⟩, by decide +kernel⟩
  exact .cons houter ⟨hout, by decide +kernel⟩
    (.cons (hparent.mem_places houter) ⟨hparent, by decide +kernel⟩ .nil)

end EmailMarkup.Selector
