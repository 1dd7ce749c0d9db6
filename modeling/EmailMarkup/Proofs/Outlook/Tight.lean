import EmailMarkup.Outlook.Conditional
import EmailMarkup.Proofs.Text
import Mathlib.Data.List.Chain

/-!
# What minifying does to the content of a block

The content of a block goes through `closeGaps`, which looks ahead for the end of each run of
blanks, and then through `squeeze`. `Tightens` says what becomes of a text on the way, run by run: a run
between two tags goes, any other one leaves a single blank, and all other characters stay
(`tightens_squeeze_closeGaps`).

What is said of the outcome follows from the relation alone, by induction on it. The outcome is
`Tight`: no blank stands between two tags, and no two blanks stand next to each other
(`Tightens.tight`). The characters that are no blanks are those of the content
(`Tightens.filter_eq`), and no closing mark comes up that was not there
(`Tightens.occurs`). A text that is tight is not changed (`TightFrom.eq_of_tightens`), so
doing it twice is doing it once.
-/

set_option autoImplicit false

namespace EmailMarkup.Outlook

open EmailMarkup.Text

variable {cs bs cs' : List Char} {edge : Bool} {c : Char}

/-- What becomes of the rest of a content; `edge` says whether it follows a `>`, as all of a content
does. -/
inductive Tightens : Bool → List Char → List Char → Prop
  | nil (edge : Bool) : Tightens edge [] []
  | keep (edge : Bool) {c : Char} {cs cs' : List Char} (hc : isBlank c = false)
      (h : Tightens (c == '>') cs cs') : Tightens edge (c :: cs) (c :: cs')
  /-- Blanks between a `>` and a `<` go. The closing mark at the end of the content is a `<` too. -/
  | gap {bs cs cs' : List Char} (hbs : ∀ b ∈ bs, isBlank b = true) (hcs : Bracketed cs)
      (h : Tightens true cs cs') : Tightens true (bs ++ cs) cs'
  /-- Other blanks leave one behind: a single blank stays, and two or more become a space. -/
  | run (edge : Bool) {bs cs cs' : List Char} {b : Char} (hbs : ∀ b ∈ bs, isBlank b = true)
      (hcs : ∀ c ∈ cs.head?, isBlank c = false) (hedge : edge = true → ¬ Bracketed cs)
      (hb : bs = [b] ∨ 2 ≤ bs.length ∧ b = ' ') (h : Tightens false cs cs') :
      Tightens edge (bs ++ cs) (b :: cs')

/-! ### Run by run -/

/-- A text is made of characters that are no blanks and of whole runs of blanks. -/
theorem blanks_induction {P : List Char → Prop} (nil : P [])
    (keep : ∀ c cs, isBlank c = false → P cs → P (c :: cs))
    (run : ∀ bs cs, bs ≠ [] → (∀ b ∈ bs, isBlank b = true) → (∀ c ∈ cs.head?, isBlank c = false) →
      P cs → P (bs ++ cs)) (cs : List Char) : P cs := by
  induction hlength : cs.length using Nat.strong_induction_on generalizing cs with
  | _ n ih =>
    cases cs with
    | nil => exact nil
    | cons c cs =>
      by_cases hc : isBlank c = true
      · have hsplit := List.takeWhile_append_dropWhile (p := isBlank) (l := c :: cs)
        have hne : (c :: cs).takeWhile isBlank ≠ [] := by
          rw [List.takeWhile_cons_of_pos hc]
          exact List.cons_ne_nil _ _
        have hshort : ((c :: cs).dropWhile isBlank).length < n := by
          rw [List.dropWhile_cons_of_pos hc, ← hlength]
          exact Nat.lt_succ_of_le (List.dropWhile_sublist _).length_le
        rw [← hsplit]
        exact run _ _ hne (fun b hb => List.mem_takeWhile_imp hb)
          (fun b hb => of_mem_head?_dropWhile hb) (ih _ hshort _ rfl)
      · exact keep c cs (Bool.eq_false_iff.mpr hc) (ih cs.length (by simp [← hlength]) cs rfl)

/-- Of a run of blanks and what follows it, the blanks are trimmed. -/
theorem trimLeft_run (hbs : ∀ b ∈ bs, isBlank b = true) (hcs : ∀ c ∈ cs.head?, isBlank c = false) :
    trimLeft (bs ++ cs) = cs :=
  (span_of_forall hbs hcs).2

/-- No bracket is a blank. -/
theorem isBlank_of_bracketed (h : Bracketed cs) : ∀ c ∈ cs.head?, isBlank c = false := by
  intro c hc
  rw [h c hc]
  rfl

/-- Blanks in front do not matter for what comes before a tag. -/
theorem beforeTag_iff (hbs : ∀ b ∈ bs, isBlank b = true) (hcs : ∀ c ∈ cs.head?, isBlank c = false) :
    closeGaps.beforeTag (bs ++ cs) = true ↔ Bracketed cs := by
  rw [closeGaps.beforeTag, trimLeft_run hbs hcs]
  cases cs with
  | nil | cons c cs => simp [Bracketed]

theorem closeGaps_cons (hc : isBlank c = false) (edge : Bool) (cs : List Char) :
    closeGaps edge (c :: cs) = c :: closeGaps (c == '>') cs := by
  rw [closeGaps, hc, Bool.and_false, Bool.false_and]
  rfl

/-- Blanks between two tags are dropped. -/
theorem closeGaps_gap (hbs : ∀ b ∈ bs, isBlank b = true) (hcs : ∀ c ∈ cs.head?, isBlank c = false)
    (hbracket : Bracketed cs) : closeGaps true (bs ++ cs) = closeGaps true cs := by
  induction bs with
  | nil => rfl
  | cons b bs ih =>
    rw [List.forall_mem_cons] at hbs
    rw [List.cons_append, closeGaps, hbs.1, (beforeTag_iff hbs.2 hcs).mpr hbracket]
    exact ih hbs.2

/-- Other blanks are kept. -/
theorem closeGaps_run (hbs : ∀ b ∈ bs, isBlank b = true) (hcs : ∀ c ∈ cs.head?, isBlank c = false)
    (hedge : edge = true → ¬ Bracketed cs) :
    closeGaps edge (bs ++ cs) = bs ++ closeGaps false cs := by
  induction bs generalizing edge with
  | nil =>
    cases cs with
    | nil => rfl
    | cons c cs =>
      rw [List.nil_append, closeGaps_cons (hcs c rfl), List.nil_append, closeGaps_cons (hcs c rfl)]
  | cons b bs ih =>
    rw [List.forall_mem_cons] at hbs
    have hkept : (edge && isBlank b && closeGaps.beforeTag (bs ++ cs)) = false := by
      rw [hbs.1, Bool.and_true, Bool.and_eq_false_iff, or_iff_not_imp_left, Bool.not_eq_false]
      intro htrue
      rw [← Bool.not_eq_true, beforeTag_iff hbs.2 hcs]
      exact hedge htrue
    have hb : (b == '>') = false := by
      rw [beq_eq_false_iff_ne]
      rintro rfl
      exact absurd hbs.1 (by decide)
    have hrest : closeGaps false (bs ++ cs) = bs ++ closeGaps false cs :=
      ih hbs.2 fun hfalse => absurd hfalse Bool.false_ne_true
    rw [List.cons_append, closeGaps, hkept, if_neg Bool.false_ne_true, hb, hrest, List.cons_append]

theorem squeeze_cons (hc : isBlank c = false) (cs : List Char) :
    squeeze (c :: cs) = c :: squeeze cs := by
  cases cs with
  | nil => rfl
  | cons d cs =>
    rw [squeeze, hc, Bool.false_and]
    rfl

/-- One blank is left of a run. -/
theorem squeeze_run (hne : bs ≠ []) (hbs : ∀ b ∈ bs, isBlank b = true)
    (hcs : ∀ c ∈ cs.head?, isBlank c = false) :
    ∃ b, squeeze (bs ++ cs) = b :: squeeze cs ∧ (bs = [b] ∨ 2 ≤ bs.length ∧ b = ' ') := by
  induction bs with
  | nil => exact absurd rfl hne
  | cons b bs ih =>
    rw [List.forall_mem_cons] at hbs
    cases bs with
    | nil =>
      refine ⟨b, ?_, .inl rfl⟩
      cases cs with
      | nil => rfl
      | cons c cs =>
        rw [List.singleton_append, squeeze, hcs c rfl, Bool.and_false]
        rfl
    | cons d bs =>
      obtain ⟨e, he, -⟩ := ih (List.cons_ne_nil d bs) hbs.2
      refine ⟨' ', ?_, .inr ⟨by simp, rfl⟩⟩
      rw [List.cons_append] at he
      rw [List.cons_append, List.cons_append, squeeze, hbs.1, hbs.2 d List.mem_cons_self, he]
      rfl

/-- The first character of a text that does not begin with a blank stays. -/
theorem head?_closeGaps (hcs : ∀ c ∈ cs.head?, isBlank c = false) (edge : Bool) :
    (closeGaps edge cs).head? = cs.head? := by
  cases cs with
  | nil => rfl
  | cons c cs => rw [closeGaps_cons (hcs c rfl), List.head?_cons, List.head?_cons]

/-- What the two passes make of a content. -/
theorem tightens_squeeze_closeGaps (edge : Bool) (content : List Char) :
    Tightens edge content (squeeze (closeGaps edge content)) := by
  induction content using blanks_induction generalizing edge with
  | nil => exact .nil edge
  | keep c cs hc ih =>
    rw [closeGaps_cons hc, squeeze_cons hc]
    exact .keep edge hc (ih _)
  | run bs cs hne hbs hcs ih =>
    by_cases hgap : edge = true ∧ Bracketed cs
    · obtain ⟨rfl, hbracket⟩ := hgap
      rw [closeGaps_gap hbs hcs hbracket]
      exact .gap hbs hbracket (ih true)
    · have hedge : edge = true → ¬ Bracketed cs := not_and.mp hgap
      have hkept : ∀ c ∈ (closeGaps false cs).head?, isBlank c = false := by
        rw [head?_closeGaps hcs]
        exact hcs
      obtain ⟨b, hsqueeze, hb⟩ := squeeze_run hne hbs hkept
      rw [closeGaps_run hbs hcs hedge, hsqueeze]
      exact .run edge hbs hcs hedge hb (ih false)

/-! ### What stays -/

/-- What is left of a run is a blank. -/
theorem isBlank_left {b : Char} (hbs : ∀ b ∈ bs, isBlank b = true)
    (hb : bs = [b] ∨ 2 ≤ bs.length ∧ b = ' ') : isBlank b = true := by
  rcases hb with rfl | ⟨-, rfl⟩
  · exact hbs b List.mem_cons_self
  · rfl

/-- The characters that are no blanks stay, in order. -/
theorem Tightens.filter_eq (h : Tightens edge cs cs') :
    cs'.filter (fun c => !isBlank c) = cs.filter fun c => !isBlank c := by
  have hblank : ∀ bs : List Char, (∀ b ∈ bs, isBlank b = true) →
      bs.filter (fun c => !isBlank c) = [] := by
    intro bs hbs
    exact List.filter_eq_nil_iff.mpr fun b hb => by simp [hbs b hb]
  induction h with
  | nil => rfl
  | keep edge hc h ih => simp [hc, ih]
  | gap hbs hcs h ih => rw [List.filter_append, hblank _ hbs, List.nil_append, ih]
  | @run edge bs cs cs' b hbs hcs hedge hb h ih =>
    have hone := isBlank_left hbs hb
    rw [List.filter_append, hblank _ hbs, List.filter_cons_of_neg (by simp [hone]), ih,
      List.nil_append]

theorem Tightens.head?_eq (h : Tightens edge cs cs') (hfirst : ∀ c ∈ cs.head?, isBlank c = false) :
    cs'.head? = cs.head? := by
  induction h with
  | nil | keep => rfl
  | @gap bs cs cs' hbs hcs h ih =>
    cases bs with
    | nil => exact ih hfirst
    | cons b bs =>
      have hb := hbs b List.mem_cons_self
      rw [hfirst b rfl] at hb
      cases hb
  | @run edge bs cs cs' b hbs hcs hedge hb h ih =>
    cases bs with
    | nil => simp at hb
    | cons b bs =>
      have hb := hbs b List.mem_cons_self
      rw [hfirst b rfl] at hb
      cases hb

/-! ### No new mark -/

/-- A text with neither blanks nor brackets that the outcome begins with was there before. -/
theorem Tightens.begins {edge : Bool} {cs cs' mark : List Char} (h : Tightens edge cs cs')
    (hmark : ∀ m ∈ mark, isBlank m = false ∧ m ≠ '<') (hbegins : mark <+: cs') : mark <+: cs := by
  induction h generalizing mark with
  | nil => exact hbegins
  | keep edge hc h ih =>
    cases mark with
    | nil => exact List.nil_prefix
    | cons m mark =>
      rw [List.cons_prefix_cons] at hbegins ⊢
      exact ⟨hbegins.1, ih (List.forall_mem_cons.mp hmark).2 hbegins.2⟩
  | @gap bs cs cs' hbs hcs h ih =>
    cases mark with
    | nil => exact List.nil_prefix
    | cons m mark =>
      -- What follows the gap is the end or a bracket, and the text begins with neither.
      have hm := List.prefix_iff_eq_append.mp (ih hmark hbegins)
      exact absurd (hcs m (by rw [← hm]; rfl)) (hmark m List.mem_cons_self).2
  | @run edge bs cs cs' b hbs hcs hedge hb h ih =>
    cases mark with
    | nil => exact List.nil_prefix
    | cons m mark =>
      have hm := (hmark m List.mem_cons_self).1
      rw [(List.cons_prefix_cons.mp hbegins).1, isBlank_left hbs hb] at hm
      cases hm

/-- No mark that begins with a bracket, and has neither another one nor a blank, comes up where
there was none. -/
theorem Tightens.occurs {mark : List Char} (h : Tightens edge cs cs')
    (hmark : ∀ m ∈ mark, isBlank m = false ∧ m ≠ '<') (hoccurs : '<' :: mark <:+: cs') :
    '<' :: mark <:+: cs := by
  induction h with
  | nil => exact hoccurs
  | keep edge hc h ih =>
    rw [List.infix_cons_iff, List.cons_prefix_cons] at hoccurs ⊢
    exact hoccurs.imp (And.imp_right (h.begins hmark)) ih
  | gap hbs hcs h ih => exact (ih hoccurs).trans (List.suffix_append _ _).isInfix
  | run edge hbs hcs hedge hb h ih =>
    rw [List.infix_cons_iff, List.cons_prefix_cons] at hoccurs
    rcases hoccurs with ⟨rfl, -⟩ | hoccurs
    · exact absurd (isBlank_left hbs hb) (by decide)
    · exact (ih hoccurs).trans (List.suffix_append _ _).isInfix

/-! ### Tight texts -/

/-- Blanks stand between a `>` and a `<` nowhere. -/
def GapFree (cs : List Char) : Prop :=
  ∀ bs, (∀ b ∈ bs, isBlank b = true) → '>' :: (bs ++ ['<']) <:+: cs → bs = []

/-- The content of a block in which no blank can be spared. -/
structure Tight (content : List Char) : Prop where
  /-- The opening of the block ends with `>` and its closing mark begins with `<`, so that there is
  no blank between them and a tag either. -/
  gapFree : GapFree ('>' :: (content ++ ['<']))
  /-- No two blanks stand next to each other. -/
  single : content.IsChain fun b c => (isBlank b && isBlank c) = false

/-- A text begins with blanks and a `<` behind them. -/
def StartsGap (cs : List Char) : Prop :=
  ∃ bs, bs ≠ [] ∧ (∀ b ∈ bs, isBlank b = true) ∧ bs ++ ['<'] <+: cs

theorem gapFree_cons_iff : GapFree (c :: cs) ↔ (c = '>' → ¬ StartsGap cs) ∧ GapFree cs := by
  constructor
  · intro h
    refine ⟨?_, fun bs hbs hoccurs => h bs hbs (List.infix_cons_iff.mpr (.inr hoccurs))⟩
    rintro rfl ⟨bs, hne, hbs, hbegins⟩
    exact hne (h bs hbs (List.infix_cons_iff.mpr (.inl (List.cons_prefix_cons.mpr ⟨rfl, hbegins⟩))))
  · rintro ⟨hfirst, hrest⟩ bs hbs hoccurs
    rcases List.infix_cons_iff.mp hoccurs with hbegins | hoccurs
    · obtain ⟨hc, hafter⟩ := List.cons_prefix_cons.mp hbegins
      by_contra hne
      exact hfirst hc.symm ⟨bs, hne, hbs, hafter⟩
    · exact hrest bs hbs hoccurs

/-- What does not begin with a blank does not begin with a gap. -/
theorem not_startsGap_cons (hc : isBlank c = false) (cs : List Char) : ¬ StartsGap (c :: cs) := by
  rintro ⟨bs, hne, hbs, hbegins⟩
  obtain ⟨b, bs, rfl⟩ := List.exists_cons_of_ne_nil hne
  have hb := hbs b List.mem_cons_self
  rw [(List.cons_prefix_cons.mp hbegins).1, hc] at hb
  cases hb

/-- A run of blanks in front of the closing mark is a gap exactly if it ends there or at a tag. -/
theorem startsGap_run_iff (hne : bs ≠ []) (hbs : ∀ b ∈ bs, isBlank b = true)
    (hcs : ∀ c ∈ cs.head?, isBlank c = false) : StartsGap (bs ++ cs ++ ['<']) ↔ Bracketed cs := by
  constructor
  · rintro ⟨bs', -, hbs', more, hmore⟩
    -- Trimming takes off the blanks, however the text is cut.
    have hgap : trimLeft (bs' ++ ['<'] ++ more) = '<' :: more := by
      rw [List.append_assoc, trimLeft_run hbs' (by simp; decide)]
      rfl
    have hrun : trimLeft (bs ++ cs ++ ['<']) = cs ++ ['<'] := by
      rw [List.append_assoc, trimLeft_run hbs]
      cases cs with
      | nil => simp; decide
      | cons c cs => exact hcs
    rw [← hmore, hgap] at hrun
    cases cs with
    | nil => exact bracketed_iff.mpr (.inl rfl)
    | cons c cs =>
      rw [List.cons_append, List.cons.injEq] at hrun
      exact bracketed_iff.mpr (.inr ⟨cs, by rw [hrun.1]⟩)
  · intro hbracket
    refine ⟨bs, hne, hbs, ?_⟩
    rw [List.append_assoc, List.prefix_append_right_inj]
    rcases bracketed_iff.mp hbracket with rfl | ⟨after, rfl⟩
    · exact List.prefix_refl _
    · exact List.prefix_append ['<'] (after ++ ['<'])

/-- The rest of a content in which no blank can be spared; `edge` says whether it follows a `>`. -/
structure TightFrom (edge : Bool) (cs : List Char) : Prop where
  start : edge = true → ¬ StartsGap (cs ++ ['<'])
  gapFree : GapFree (cs ++ ['<'])
  single : cs.IsChain fun b c => (isBlank b && isBlank c) = false

theorem tightFrom_true_iff {content : List Char} : TightFrom true content ↔ Tight content := by
  constructor
  · rintro ⟨hstart, hgap, hsingle⟩
    exact ⟨gapFree_cons_iff.mpr ⟨fun _ => hstart rfl, hgap⟩, hsingle⟩
  · rintro ⟨hgap, hsingle⟩
    obtain ⟨hstart, hgap⟩ := gapFree_cons_iff.mp hgap
    exact ⟨fun _ => hstart rfl, hgap, hsingle⟩

/-- A character that is no blank can stand in front of what is tight. -/
theorem tightFrom_cons_iff (hc : isBlank c = false) :
    TightFrom edge (c :: cs) ↔ TightFrom (c == '>') cs := by
  constructor
  · rintro ⟨-, hgap, hsingle⟩
    obtain ⟨hstart, hgap⟩ := gapFree_cons_iff.mp hgap
    exact ⟨fun hedge => hstart (beq_iff_eq.mp hedge), hgap, (List.isChain_cons.mp hsingle).2⟩
  · rintro ⟨hstart, hgap, hsingle⟩
    refine ⟨fun _ => not_startsGap_cons hc _, ?_, ?_⟩
    · exact gapFree_cons_iff.mpr ⟨fun hedge => hstart (beq_iff_eq.mpr hedge), hgap⟩
    · exact List.isChain_cons.mpr ⟨fun d _ => by rw [hc]; rfl, hsingle⟩

/-- No blank can be spared in the outcome. -/
theorem Tightens.tightFrom (h : Tightens edge cs cs') : TightFrom edge cs' := by
  induction h with
  | nil edge =>
    refine ⟨fun _ => not_startsGap_cons (by decide) [], ?_, List.isChain_nil⟩
    refine gapFree_cons_iff.mpr ⟨fun hbracket => absurd hbracket (by decide), ?_⟩
    intro bs _ hoccurs
    cases List.infix_nil.mp hoccurs
  | keep edge hc h ih => exact (tightFrom_cons_iff hc).mpr ih
  | gap hbs hcs h ih => exact ih
  | @run edge bs cs cs' b hbs hcs hedge hb h ih =>
    have hone := isBlank_left hbs hb
    have hhead := h.head?_eq hcs
    have hcs' : ∀ c ∈ cs'.head?, isBlank c = false := by rwa [hhead]
    refine ⟨?_, ?_, ?_⟩
    · intro htrue hgap
      have hbracket : Bracketed cs' :=
        (startsGap_run_iff (List.cons_ne_nil b []) (List.forall_mem_singleton.mpr hone) hcs').mp
          hgap
      refine hedge htrue ?_
      rwa [Bracketed, ← hhead]
    · refine gapFree_cons_iff.mpr ⟨?_, ih.gapFree⟩
      rintro rfl
      exact absurd hone (by decide)
    · refine List.isChain_cons.mpr ⟨fun c hc => ?_, ih.single⟩
      rw [hcs' c hc, Bool.and_false]

/-- The outcome of minifying a content is tight. -/
theorem Tightens.tight {content content' : List Char} (h : Tightens true content content') :
    Tight content' :=
  tightFrom_true_iff.mp h.tightFrom

/-- In what is tight there is nothing to change. -/
theorem TightFrom.eq_of_tightens (h : TightFrom edge cs) (htightens : Tightens edge cs cs') :
    cs' = cs := by
  induction htightens with
  | nil => rfl
  | keep edge hc _ ih => rw [ih ((tightFrom_cons_iff hc).mp h)]
  | @gap bs cs cs' hbs hcs _ ih =>
    by_cases hne : bs = []
    · subst hne
      exact ih h
    · exact absurd ((startsGap_run_iff hne hbs (isBlank_of_bracketed hcs)).mpr hcs) (h.start rfl)
  | @run edge bs cs cs' b hbs hcs hedge hb _ ih =>
    rcases hb with rfl | ⟨htwo, -⟩
    · have hrest : TightFrom false cs :=
        ⟨nofun, (gapFree_cons_iff.mp h.gapFree).2, (List.isChain_cons.mp h.single).2⟩
      rw [ih hrest]
      rfl
    · -- Two blanks stand next to each other.
      obtain ⟨a, tail, rfl⟩ := List.exists_cons_of_length_pos (Nat.lt_of_lt_of_le Nat.two_pos htwo)
      obtain ⟨c, tail, rfl⟩ := List.exists_cons_of_length_pos (Nat.le_of_succ_le_succ htwo)
      have hboth := (List.isChain_cons.mp h.single).1 c rfl
      rw [hbs a (by simp), hbs c (by simp)] at hboth
      cases hboth

end EmailMarkup.Outlook
