import EmailMarkup.Proofs.Cascade.OwnStyle

/-!
# In which order a style is written

A style is read from left to right, and a later declaration may undo part of an earlier one, as
`margin` does with `margin-left`. So the declarations that win should be written in the order of the
cascade. They are not: a property keeps the place at which it was first declared, and the
declaration that wins for it is written there (`shorthand_written_early`).

`Standing` is the place of a declaration in the cascade, and `standings` lists what the rules of a
sheet declare for an element, each with its standing. `written_before_iff` says for every text and
all sheets without important declarations what the style of an element that has none of its own
holds, and in which order: the declarations that win, and of two properties the one of which some
declaration comes before all those of the other.

The declarations in the order of their standing are those that the pass over the rules goes through
(`map_snd_rankedStandings`, `pairwise_rankedStandings`). What the pass makes of declarations and
what of their order is then said for any list that is in order (`last?_eq_some_iff_wins`,
`pairwise_keys_ofRules`).
-/

set_option autoImplicit false

namespace EmailMarkup.Selector.Specificity

/-! ### Weights -/

theorem le_iff {s t : Specificity} : s.le t = true ↔ s.ids < t.ids ∨ s.ids = t.ids ∧
    (s.classes < t.classes ∨ s.classes = t.classes ∧ s.types ≤ t.types) := by
  simp [le]

theorem le_refl (s : Specificity) : s.le s = true := by
  rw [le_iff]
  omega

theorem le_trans (s t u : Specificity) (hst : s.le t = true) (htu : t.le u = true) :
    s.le u = true := by
  rw [le_iff] at *
  omega

theorem le_total (s t : Specificity) : (s.le t || t.le s) = true := by
  rw [Bool.or_eq_true, le_iff, le_iff]
  omega

/-- Selectors of which neither weighs more weigh the same. -/
theorem le_antisymm {s t : Specificity} (hst : s.le t = true) (hts : t.le s = true) : s = t := by
  rw [le_iff] at hst hts
  cases s
  cases t
  rw [mk.injEq]
  simp only at hst hts
  omega

end EmailMarkup.Selector.Specificity

namespace EmailMarkup.Cascade

open EmailMarkup.Css EmailMarkup.Html EmailMarkup.Selector EmailMarkup.Text OrderedMap

variable {p : Place} {r : StyleRule}

/-! ### The order of the cascade -/

/-- The place of a declaration in the cascade: the weight of its rule, the place of the rule in the
sheet, and that of the declaration in the rule. -/
structure Standing where
  weight : Specificity
  rule : Nat
  position : Nat
  deriving DecidableEq, Repr

/-- One declaration comes before another one if its rule weighs less, or as much and it is written
first. -/
def Standing.Before (a b : Standing) : Prop :=
  b.weight.le a.weight = false ∨ a.weight = b.weight ∧
    (a.rule < b.rule ∨ a.rule = b.rule ∧ a.position < b.position)

instance (a b : Standing) : Decidable (a.Before b) :=
  inferInstanceAs (Decidable (_ ∨ _ ∧ (_ ∨ _ ∧ _)))

/-- Of two declarations at most one stands before the other. -/
theorem Standing.Before.asymm {a b : Standing} (hab : a.Before b) : ¬ b.Before a := by
  rcases hab with hless | ⟨hweight, hwritten⟩
  · rintro (hmore | ⟨hweight, -⟩)
    · have htotal := a.weight.le_total b.weight
      rw [hless, hmore] at htotal
      cases htotal
    · rw [hweight, Specificity.le_refl] at hless
      cases hless
  · rintro (hmore | ⟨-, hback⟩)
    · rw [hweight, Specificity.le_refl] at hmore
      cases hmore
    · omega

theorem Standing.Before.irrefl (a : Standing) : ¬ a.Before a :=
  fun h => h.asymm h

/-- What rules with their places in the sheet declare for an element, each with its standing. -/
def standingsOf (p : Place) (indexed : List (StyleRule × Nat)) : List (Standing × Declaration) :=
  (indexed.filter fun x => x.1.selector.selects p).flatMap fun x =>
    x.1.declarations.zipIdx.map fun y => (⟨x.1.selector.specificity, x.2, y.2⟩, y.1)

/-- What the rules of a sheet declare for an element, in the order of the sheet. -/
def standings (rules : List StyleRule) (p : Place) : List (Standing × Declaration) :=
  standingsOf p rules.zipIdx

/-- A declaration wins, where none is important, if none of the same property comes after it. -/
def Wins (declared : List (Standing × Declaration)) (x : Standing × Declaration) : Prop :=
  x ∈ declared ∧ ∀ y ∈ declared, y.2.property = x.2.property → ¬ x.1.Before y.1

instance (declared : List (Standing × Declaration)) (x : Standing × Declaration) :
    Decidable (Wins declared x) :=
  inferInstanceAs (Decidable (_ ∧ ∀ y ∈ declared, _ → ¬ _))

/-- Some declaration of the one property comes before all those of the other. -/
def DeclaredBefore (declared : List (Standing × Declaration)) (property other : String) : Prop :=
  ∃ x ∈ declared, x.2.property = property ∧
    ∀ y ∈ declared, y.2.property = other → x.1.Before y.1

instance (declared : List (Standing × Declaration)) (property other : String) :
    Decidable (DeclaredBefore declared property other) :=
  inferInstanceAs (Decidable (∃ x ∈ declared, _ ∧ ∀ y ∈ declared, _ → _))

/-- A style holds the declarations that win, in the order in which their properties are declared
first. -/
structure InFirstOrder (declared : List (Standing × Declaration)) (style : List Declaration) :
    Prop where
  once : (style.map Declaration.property).Nodup
  winning : ∀ d, d ∈ style ↔ ∃ x, Wins declared x ∧ x.2 = d
  ordered : ∀ x y, Wins declared x → Wins declared y →
    ([x.2.property, y.2.property].Sublist (style.map Declaration.property) ↔
      DeclaredBefore declared x.2.property y.2.property)

theorem DeclaredBefore.asymm {declared : List (Standing × Declaration)} {property other : String}
    (h : DeclaredBefore declared property other) : ¬ DeclaredBefore declared other property := by
  obtain ⟨x, hx, hproperty, hfirst⟩ := h
  rintro ⟨y, hy, hother, hback⟩
  exact (hfirst y hy hother).asymm (hback x hx hproperty)

/-- Of two members of a list one comes before the other. -/
theorem sublist_or_sublist_of_mem {α : Type} {l : List α} {a b : α} (ha : a ∈ l) (hb : b ∈ l)
    (hne : a ≠ b) : [a, b].Sublist l ∨ [b, a].Sublist l := by
  induction l with
  | nil => cases ha
  | cons c l ih =>
    rcases List.mem_cons.mp ha with rfl | hal
    · rcases List.mem_cons.mp hb with rfl | hbl
      · exact absurd rfl hne
      · exact .inl ((List.singleton_sublist.mpr hbl).cons_cons a)
    · rcases List.mem_cons.mp hb with rfl | hbl
      · exact .inr ((List.singleton_sublist.mpr hal).cons_cons b)
      · exact (ih hal hbl).imp (·.cons c) (·.cons c)

/-- It is enough that the properties of a style are one by one in the order in which they are
declared. -/
theorem InFirstOrder.of_pairwise {declared : List (Standing × Declaration)}
    {style : List Declaration}
    (hpairwise : (style.map Declaration.property).Pairwise (DeclaredBefore declared))
    (hwinning : ∀ d, d ∈ style ↔ ∃ x, Wins declared x ∧ x.2 = d) : InFirstOrder declared style := by
  have hne : ∀ {property other : String}, DeclaredBefore declared property other →
      property ≠ other := by
    rintro property _ hfirst rfl
    exact hfirst.asymm hfirst
  refine ⟨hpairwise.imp hne, hwinning, fun x y hx hy => ?_⟩
  constructor
  · exact fun hsublist => List.pairwise_iff_forall_sublist.mp hpairwise hsublist
  · -- Both are in the style, and the other order would contradict what is declared.
    intro hfirst
    have hmem : ∀ z, Wins declared z → z.2.property ∈ style.map Declaration.property :=
      fun z hz => List.mem_map_of_mem ((hwinning z.2).mpr ⟨z, hz, rfl⟩)
    rcases sublist_or_sublist_of_mem (hmem x hx) (hmem y hy) (hne hfirst) with hsublist | hback
    · exact hsublist
    · exact absurd (List.pairwise_iff_forall_sublist.mp hpairwise hback) hfirst.asymm

/-- The order in which declarations are listed does not matter, since they have their standings. -/
theorem InFirstOrder.congr {declared listed : List (Standing × Declaration)}
    {style : List Declaration} (hmem : ∀ x, x ∈ declared ↔ x ∈ listed)
    (h : InFirstOrder declared style) : InFirstOrder listed style := by
  have hwins : ∀ x, Wins declared x ↔ Wins listed x := by
    simp [Wins, hmem]
  have hbefore : ∀ property other, DeclaredBefore declared property other ↔
      DeclaredBefore listed property other := by
    simp [DeclaredBefore, hmem]
  refine ⟨h.once, fun d => ?_, fun x y hx hy => ?_⟩
  · simp only [h.winning, hwins]
  · rw [h.ordered x y ((hwins x).mpr hx) ((hwins y).mpr hy), hbefore]

/-! ### In order -/

/-- What the rules of a sheet declare for an element, in the order of the cascade. -/
def rankedStandings (rules : List StyleRule) (p : Place) : List (Standing × Declaration) :=
  standingsOf p (rules.zipIdx.mergeSort (List.zipIdxLE StyleRule.weaker))

/-- Ranking changes the order only. -/
theorem mem_rankedStandings {rules : List StyleRule} {x : Standing × Declaration} :
    x ∈ rankedStandings rules p ↔ x ∈ standings rules p := by
  unfold rankedStandings standings standingsOf
  exact (((List.mergeSort_perm _ _).filter _).flatMap_right _).mem_iff

/-- These are the declarations that the pass over the rules goes through. -/
theorem map_snd_rankedStandings (sheet : Sheet) (p : Place) :
    (rankedStandings sheet.rules p).map Prod.snd = ruled sheet.ranked p := by
  have hranked : sheet.ranked =
      (sheet.rules.zipIdx.mergeSort (List.zipIdxLE StyleRule.weaker)).map Prod.fst :=
    List.mergeSort_zipIdx.symm
  unfold rankedStandings standingsOf ruled
  rw [hranked, List.filter_map, List.flatMap_map, List.map_flatMap]
  refine congrArg (fun f => List.flatMap f _) (funext fun x => ?_)
  rw [List.map_map]
  exact List.zipIdx_map_fst 0 x.1.declarations

/-- Rules that are sorted with their places get heavier, and among those of one weight the places
grow. -/
theorem pairwise_mergeSort_zipIdx (rules : List StyleRule) :
    (rules.zipIdx.mergeSort (List.zipIdxLE StyleRule.weaker)).Pairwise fun x y =>
      y.1.weaker x.1 = false ∨
        x.1.selector.specificity = y.1.selector.specificity ∧ x.2 < y.2 := by
  have htrans : ∀ r s t : StyleRule, r.weaker s = true → s.weaker t = true → r.weaker t = true :=
    fun _ _ _ => Specificity.le_trans _ _ _
  have htotal : ∀ r s : StyleRule, (r.weaker s || s.weaker r) = true :=
    fun _ _ => Specificity.le_total _ _
  have hsorted := List.pairwise_mergeSort (List.zipIdxLE_trans htrans) (List.zipIdxLE_total htotal)
    rules.zipIdx
  have hplaces : (rules.zipIdx.mergeSort (List.zipIdxLE StyleRule.weaker)).Pairwise fun x y =>
      x.2 ≠ y.2 := by
    have hnodup : (rules.zipIdx.map Prod.snd).Nodup := by
      rw [List.zipIdx_map_snd]
      exact List.nodup_range'
    exact List.pairwise_map.mp (((List.mergeSort_perm _ _).map Prod.snd).nodup_iff.mpr hnodup)
  refine (hsorted.and hplaces).imp fun {x y} ⟨hle, hne⟩ => ?_
  cases hback : y.1.weaker x.1 with
  | false => exact .inl rfl
  | true =>
    simp only [List.zipIdxLE, hback, if_true, Bool.if_false_right, Bool.and_eq_true,
      decide_eq_true_eq] at hle
    exact .inr ⟨Specificity.le_antisymm hle.1 hback, by omega⟩

/-- In the order of the cascade every declaration comes before those behind it. -/
theorem pairwise_rankedStandings (rules : List StyleRule) (p : Place) :
    (rankedStandings rules p).Pairwise fun x y => x.1.Before y.1 := by
  unfold rankedStandings standingsOf
  rw [List.pairwise_flatMap]
  constructor
  · -- The declarations of one rule.
    intro x _
    rw [List.pairwise_map]
    have hpositions : (x.1.declarations.zipIdx.map Prod.snd).Pairwise (· < ·) := by
      rw [List.zipIdx_map_snd]
      exact List.pairwise_lt_range'
    exact (List.pairwise_map.mp hpositions).imp fun h => .inr ⟨rfl, .inr ⟨rfl, h⟩⟩
  · -- Those of two rules.
    refine ((pairwise_mergeSort_zipIdx rules).filter _).imp fun {x y} h => ?_
    simp only [List.mem_map]
    rintro _ ⟨d, -, rfl⟩ _ ⟨e, -, rfl⟩
    exact h.imp id fun ⟨hweight, hrule⟩ => ⟨hweight, .inl hrule⟩

/-! ### What the pass makes of the order -/

/-- Of declarations that are in order, the last one of a property is the one that wins. -/
theorem last?_eq_some_iff_wins {declared : List (Standing × Declaration)}
    (hordered : declared.Pairwise fun x y => x.1.Before y.1) {property : String}
    {d : Declaration} :
    last? (fun _ => true) (declared.map Prod.snd) property = some d ↔
      ∃ x, Wins declared x ∧ x.2 = d ∧ d.property = property := by
  induction declared using List.reverseRecOn with
  | nil => simp [last?, Wins]
  | append_singleton declared z ih =>
    obtain ⟨hfront, -, hlast⟩ := List.pairwise_append.mp hordered
    have hbefore : ∀ x ∈ declared, x.1.Before z.1 :=
      fun x hx => hlast x hx z (List.mem_singleton.mpr rfl)
    rw [List.map_append, List.map_singleton, last?_concat]
    by_cases hz : z.2.property = property
    · rw [if_pos ⟨hz, rfl⟩, Option.some_inj]
      constructor
      · rintro rfl
        refine ⟨z, ⟨List.mem_concat_self, fun y hy _ => ?_⟩, rfl, hz⟩
        rcases List.mem_append.mp hy with hy | hy
        · exact (hbefore y hy).asymm
        · rw [List.mem_singleton.mp hy]
          exact Standing.Before.irrefl _
      · -- Any other declaration of the property comes before the last one.
        rintro ⟨x, ⟨hx, hwins⟩, rfl, hproperty⟩
        rcases List.mem_append.mp hx with hx | hx
        · exact absurd (hbefore x hx)
            (hwins z List.mem_concat_self (hz.trans hproperty.symm))
        · rw [List.mem_singleton.mp hx]
    · rw [if_neg fun h => hz h.1, ih hfront]
      have hsame : ∀ x : Standing × Declaration, x.2.property = property →
          (Wins (declared ++ [z]) x ↔ Wins declared x) := by
        rintro x rfl
        have hne : x ≠ z := fun h => hz (h ▸ rfl)
        simp [Wins, or_imp, forall_and, hne, hz]
      refine exists_congr fun x => and_congr_left ?_
      rintro ⟨rfl, hproperty⟩
      exact (hsame x hproperty).symm

namespace Winners

/-- A declaration of a rule is listed at the end if its property is new, and leaves the order alone
otherwise. -/
theorem keys_addRuled (w : Winners) (d : Declaration) :
    (w.addRuled d).keys = if d.property ∈ w.keys then w.keys else w.keys ++ [d.property] := by
  unfold addRuled
  split
  · rename_i old hold
    have hknown : d.property ∈ w.keys := by
      rw [mem_keys_iff, hold]
      rfl
    rw [if_pos hknown]
    split
    · rfl
    · rw [keys_insert, if_pos hknown]
  · exact keys_insert w d.property _

/-- The pass over declarations that are in order lists a property before another one only if it is
declared before. -/
theorem pairwise_keys_ofRules {declared : List (Standing × Declaration)}
    (hordered : declared.Pairwise fun x y => x.1.Before y.1) :
    (ofRules (declared.map Prod.snd)).keys.Pairwise (DeclaredBefore declared) := by
  induction declared using List.reverseRecOn with
  | nil => exact List.Pairwise.nil
  | append_singleton declared z ih =>
    obtain ⟨hfront, -, hlast⟩ := List.pairwise_append.mp hordered
    have hbefore : ∀ x ∈ declared, x.1.Before z.1 :=
      fun x hx => hlast x hx z (List.mem_singleton.mpr rfl)
    -- A property that was declared before another one still is, since what is new comes last.
    have hkept : (ofRules (declared.map Prod.snd)).keys.Pairwise
        (DeclaredBefore (declared ++ [z])) := by
      refine (ih hfront).imp fun ⟨x, hx, hproperty, hfirst⟩ => ?_
      refine ⟨x, List.mem_append_left _ hx, hproperty, fun y hy hother => ?_⟩
      rcases List.mem_append.mp hy with hy | hy
      · exact hfirst y hy hother
      · rw [List.mem_singleton.mp hy]
        exact hbefore x hx
    rw [List.map_append, List.map_singleton, ofRules_concat, keys_addRuled]
    split
    · exact hkept
    · rename_i hnew
      refine List.pairwise_append.mpr ⟨hkept, List.pairwise_singleton _ _, ?_⟩
      intro property hproperty other hother
      rw [List.mem_singleton.mp hother]
      obtain ⟨d, hd, rfl⟩ := mem_keys_ofRules.mp hproperty
      obtain ⟨x, hx, rfl⟩ := List.mem_map.mp hd
      refine ⟨x, List.mem_append_left _ hx, rfl, fun y hy hsame => ?_⟩
      rcases List.mem_append.mp hy with hy | hy
      · exact absurd (mem_keys_ofRules.mpr ⟨y.2, List.mem_map_of_mem hy, hsame⟩) hnew
      · rw [List.mem_singleton.mp hy]
        exact hbefore x hx

end Winners

/-! ### The style that is written -/

/-- Among declarations of which none is important the last one of a property is the strongest. -/
theorem strongest?_of_plain {ds : List Declaration} (hplain : ∀ d ∈ ds, d.important = false)
    (property : String) : strongest? ds property = last? (fun _ => true) ds property := by
  rw [strongest?, last?_eq_none_iff.mpr fun d hd _ => hplain d hd, Option.none_or]

/-- The properties of a style that is made from rules alone are the keys of the map. -/
theorem map_property_mergedStyle (rules : List StyleRule) (hown : ownStyle p.tag = []) :
    (mergedStyle rules p).map Declaration.property = (Winners.ofRules (ruled rules p)).keys := by
  have hknown := map_values (f := fun v : Winner => v.declaration.property)
    (m := (Winners.ofRules (ruled rules p)).addStyle (ownStyle p.tag))
    fun _ _ => Winners.property_of_get?_merged
  rw [hown] at hknown
  rw [mergedStyle, hown, List.map_map]
  exact hknown

/-- Without a style of its own and without importance, an element has the last declaration of each
property. Both conditions are needed: either would win over the order. -/
theorem mem_mergedStyle {rules : List StyleRule} (hown : ownStyle p.tag = [])
    (hplain : ∀ d ∈ ruled rules p, d.important = false) {d : Declaration} :
    d ∈ mergedStyle rules p ↔ last? (fun _ => true) (ruled rules p) d.property = some d := by
  have hwritten : ∀ e ∈ ruled rules p, Winner.written { declaration := e, own := false } = e := by
    intro e he
    have hmark := hplain e he
    cases e
    simp only at hmark
    simp [Winner.written, hmark]
  rw [mergedStyle, hown]
  show d ∈ (Winners.ofRules (ruled rules p)).values.map Winner.written ↔ _
  rw [values_eq_filterMap, List.mem_map]
  simp only [List.mem_filterMap, Winners.get?_ofRules, strongest?_of_plain hplain,
    Option.map_eq_some_iff]
  constructor
  · rintro ⟨_, ⟨property, -, e, hlast, rfl⟩, rfl⟩
    obtain ⟨he, hproperty, -⟩ := last?_spec hlast
    rw [hwritten e he, hproperty, hlast]
  · intro hlast
    obtain ⟨hd, -, -⟩ := last?_spec hlast
    exact ⟨_, ⟨d.property, Winners.mem_keys_ofRules.mpr ⟨d, hd, rfl⟩, d, hlast, rfl⟩,
      hwritten d hd⟩

/-- The style of an element that has none of its own, where no declaration is important. -/
theorem inFirstOrder_mergedStyle {sheet : Sheet} (hown : ownStyle p.tag = [])
    (hplain : ∀ r ∈ sheet.rules, ∀ d ∈ r.declarations, d.important = false) :
    InFirstOrder (standings sheet.rules p) (mergedStyle sheet.ranked p) := by
  have hruled := map_snd_rankedStandings sheet p
  have hordered := pairwise_rankedStandings sheet.rules p
  have hmarks : ∀ d ∈ ruled sheet.ranked p, d.important = false := by
    intro d hd
    obtain ⟨r, hr, hmem⟩ := List.mem_flatMap.mp hd
    exact hplain r (List.mem_mergeSort.mp (List.mem_filter.mp hr).1) d hmem
  refine InFirstOrder.congr (fun _ => mem_rankedStandings) (.of_pairwise ?_ ?_)
  · rw [map_property_mergedStyle sheet.ranked hown, ← hruled]
    exact Winners.pairwise_keys_ofRules hordered
  · intro d
    rw [mem_mergedStyle hown hmarks, ← hruled, last?_eq_some_iff_wins hordered]
    simp

theorem Sheet.mem_rules_append {sheets : List Sheet} :
    r ∈ (sheets.foldr append { rules := [], reports := [] }).rules ↔
      ∃ s ∈ sheets, r ∈ s.rules := by
  induction sheets with
  | nil => simp
  | cons s sheets ih => simp [append, ih]

/-- Every rule of a sheet declares something. -/
theorem Sheet.declarations_ne_nil {css : String} (hr : r ∈ (read css).rules) :
    r.declarations ≠ [] := by
  obtain ⟨_, hrule, hmem⟩ := mem_rules_append.mp hr
  obtain ⟨rule, -, rfl⟩ := List.mem_map.mp hrule
  unfold ofRule at hmem
  split at hmem
  · cases hmem
  · rename_i hdeclares
    obtain ⟨_, hselector, hmem⟩ := mem_rules_append.mp hmem
    obtain ⟨selector, -, rfl⟩ := List.mem_map.mp hselector
    unfold ofSelector at hmem
    split at hmem
    · rw [List.mem_singleton.mp hmem]
      exact fun hnil => hdeclares (List.isEmpty_iff.mpr hnil)
    · cases hmem
    · cases hmem

/-- So a rule that selects an element has something for it. -/
theorem ruled_ne_nil {css : String} (hr : r ∈ (Sheet.read css).rules)
    (hselects : r.selector.selects p = true) : ruled (Sheet.read css).ranked p ≠ [] := by
  obtain ⟨d, hd⟩ := List.exists_mem_of_ne_nil _ (Sheet.declarations_ne_nil hr)
  refine List.ne_nil_of_mem (List.mem_flatMap.mpr ⟨r, List.mem_filter.mpr ⟨?_, hselects⟩, hd⟩)
  exact List.mem_mergeSort.mpr hr

/-- Whatever the text and the sheets are, if no declaration of the sheets is important: an element
that is shown, has no style of its own and is selected by a rule is given the declarations that win
for it, each property once. Of two properties, the one that is written first is the one of which
some declaration comes before all those of the other. -/
theorem written_before_iff (html : String) (sheets : List String) :
    let sheet := Sheet.read ("\n".intercalate sheets)
    let given := Document.read html
    let result := given.updateInOrder (restyle sheet.ranked)
    (inlineSheets html sheets).html = (if sheet.rules.isEmpty then html else result.print) ∧
    ((∀ r ∈ sheet.rules, ∀ d ∈ r.declarations, d.important = false) →
      ∀ i t, given.tags[i]? = some t → lower t.name ∉ unstyled → t.attribute? "style" = none →
        ∃ p, p.tag = t ∧ (given.retag (result.tags.take i)).places[i]? = some p ∧
          ((∃ r ∈ sheet.rules, r.selector.selects p = true) →
            ∃ style, InFirstOrder (standings sheet.rules p) style ∧
              result.tags[i]? = some (t.setAttribute "style"
                (escapeAttribute (printDeclarations style))))) := by
  intro sheet given result
  refine ⟨html_inlineSheets html sheets, ?_⟩
  intro hplain i t ht hshown hbare
  obtain ⟨p, rfl, hplace, hresult⟩ := given.exists_shown (restyle sheet.ranked) ht
  refine ⟨p, rfl, hplace, ?_⟩
  rintro ⟨r, hr, hselects⟩
  have hown : ownStyle p.tag = [] := by rw [ownStyle, hbare]
  refine ⟨mergedStyle sheet.ranked p, inFirstOrder_mergedStyle hown hplain, ?_⟩
  rw [hresult, restyle_of_ruled hshown (ruled_ne_nil hr hselects)]
  rfl

/-- The document of a link with nothing in it. -/
def emptyLink : Document :=
  { children := [.element (plainTag "a") []] }

/-- The place of the link. -/
def emptyLinkPlace : Place :=
  { row := { before := [], here := ⟨plainTag "a", true⟩, after := [] }, above := [] }

theorem read_emptyLink : Document.read "<a></a>" = emptyLink := by
  refine Eq.trans (congrArg Document.read (by decide +kernel)) (read_print ?_)
  exact .plain (by decide) .nil .nil

theorem places_emptyLink : emptyLink.places = [emptyLinkPlace] := by
  simp [Document.places, placesAmong, elementsAmong, emptyLink, emptyLinkPlace]

/-- A sheet in which the margin is declared by the second and the third rule, and the left margin by
the first one, which is the heaviest. -/
def emptyLinkSheet : String :=
  "a:empty\x7bmargin-left:1px\x7da\x7bmargin:0\x7da\x7bmargin:2px\x7d"

/-- The margin is written before the left margin, with the value of the last rule. -/
theorem margin_written_first :
    let sheet := Sheet.read ("\n".intercalate [emptyLinkSheet])
    let declared := standings sheet.rules emptyLinkPlace
    declared = [(⟨⟨0, 1, 1⟩, 0, 0⟩, ⟨"margin-left", "1px", false⟩),
      (⟨⟨0, 0, 1⟩, 1, 0⟩, ⟨"margin", "0", false⟩),
      (⟨⟨0, 0, 1⟩, 2, 0⟩, ⟨"margin", "2px", false⟩)] ∧
    ∃ style, [Declaration.mk "margin" "2px" false, ⟨"margin-left", "1px", false⟩] ⊆ style ∧
      ["margin", "margin-left"].Sublist (style.map Declaration.property) ∧
      ((Document.read "<a></a>").updateInOrder (restyle sheet.ranked)).tags[0]? =
        some ((plainTag "a").setAttribute "style" (escapeAttribute (printDeclarations style))) := by
  intro sheet declared
  have hdeclared : declared = [(⟨⟨0, 1, 1⟩, 0, 0⟩, ⟨"margin-left", "1px", false⟩),
      (⟨⟨0, 0, 1⟩, 1, 0⟩, ⟨"margin", "0", false⟩),
      (⟨⟨0, 0, 1⟩, 2, 0⟩, ⟨"margin", "2px", false⟩)] := by
    decide +kernel
  have hplain : sheet.rules.all (fun r => r.declarations.all (!·.important)) = true := by
    decide +kernel
  have hselects : sheet.rules.any (·.selector.selects emptyLinkPlace) = true := by decide +kernel
  have hbefore : DeclaredBefore declared "margin" "margin-left" := by
    rw [hdeclared]
    decide
  have hmargin : Wins declared (⟨⟨0, 0, 1⟩, 2, 0⟩, ⟨"margin", "2px", false⟩) := by
    rw [hdeclared]
    decide
  have hleft : Wins declared (⟨⟨0, 1, 1⟩, 0, 0⟩, ⟨"margin-left", "1px", false⟩) := by
    rw [hdeclared]
    decide
  have htag : (Document.read "<a></a>").tags[0]? = some (plainTag "a") := by
    rw [read_emptyLink]
    simp [Document.tags, tagsAmong, emptyLink]
  simp only [List.all_eq_true, Bool.not_eq_true'] at hplain
  obtain ⟨p, -, hp, hstyled⟩ := (written_before_iff "<a></a>" [emptyLinkSheet]).2 hplain 0 _ htag
    (by decide +kernel) (by decide)
  have hplace : p = emptyLinkPlace := by
    rw [List.take_zero, read_emptyLink, Document.retag, retagAmong_nil] at hp
    change emptyLink.places[0]? = some p at hp
    rw [places_emptyLink] at hp
    exact (Option.some.inj hp).symm
  subst hplace
  obtain ⟨style, hstyle, hresult⟩ := hstyled (List.any_eq_true.mp hselects)
  refine ⟨hdeclared, style, ?_, (hstyle.ordered _ _ hmargin hleft).mpr hbefore, hresult⟩
  refine List.cons_subset.mpr ⟨(hstyle.winning _).mpr ⟨_, hmargin, rfl⟩, ?_⟩
  exact List.cons_subset.mpr ⟨(hstyle.winning _).mpr ⟨_, hleft, rfl⟩, List.nil_subset _⟩

/-- A sheet that declares a margin, then the left margin, then the margin anew. -/
def shorthandSheet : String :=
  "a\x7bmargin:0\x7da\x7bmargin-left:1px\x7da\x7bmargin:2px\x7d"

/-- The declaration of the left margin that wins comes before that of the margin, but it is written
after it, and so is the one that a reader of the style goes by. -/
theorem shorthand_written_early :
    let declared := standings (Sheet.read shorthandSheet).rules emptyLinkPlace
    let longhand : Standing × Declaration := (⟨⟨0, 0, 1⟩, 1, 0⟩, ⟨"margin-left", "1px", false⟩)
    let shorthand : Standing × Declaration := (⟨⟨0, 0, 1⟩, 2, 0⟩, ⟨"margin", "2px", false⟩)
    (Document.read "<a></a>").places[0]? = some emptyLinkPlace ∧
    Wins declared longhand ∧ Wins declared shorthand ∧ longhand.1.Before shorthand.1 ∧
    (inlineSheets "<a></a>" [shorthandSheet]).html =
      "<a style=\"margin:2px;margin-left:1px;\"></a>" := by
  intro declared longhand shorthand
  have hdeclared : declared =
      [(⟨⟨0, 0, 1⟩, 0, 0⟩, ⟨"margin", "0", false⟩), longhand, shorthand] := by
    decide +kernel
  have hranked : (Sheet.read shorthandSheet).ranked = (Sheet.read shorthandSheet).rules :=
    List.mergeSort_of_pairwise (by decide +kernel)
  have hrestyle : restyle (Sheet.read shorthandSheet).rules emptyLinkPlace =
      styledTag "a" "margin:2px;margin-left:1px;" := by
    decide +kernel
  have hupdate : emptyLink.updateInOrder (restyle (Sheet.read shorthandSheet).rules) =
      styledLinkDocument "margin:2px;margin-left:1px;" := by
    rw [emptyLinkPlace] at hrestyle
    simp [Document.updateInOrder, updateAmong, elementsAmong, emptyLink, styledLinkDocument,
      hrestyle]
  have hsheets : "\n".intercalate [shorthandSheet] = shorthandSheet := by decide +kernel
  refine ⟨by rw [read_emptyLink, places_emptyLink]; rfl, by rw [hdeclared]; decide,
    by rw [hdeclared]; decide, by decide, ?_⟩
  rw [html_inlineSheets, hsheets, hranked, read_emptyLink, hupdate]
  decide +kernel

end EmailMarkup.Cascade
