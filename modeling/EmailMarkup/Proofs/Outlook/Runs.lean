import EmailMarkup.Proofs.Outlook.Merge
import Mathlib.Data.List.Chain

/-!
# What merging does to runs of plain blocks

Plain blocks that have nothing or only blanks between them are a run. `RunsOf` says that clusters
are a sequence of segments cut into runs and texts, with every run as long as it can be.

`merge_joins_runs` is about texts and plain blocks in which no mark stands. Such a sequence can be
cut into runs, and merging makes one block of each run, with the contents of its blocks one after
the other. The blanks in a run go, and all other texts stay as they are.

Neither mark can be made up at the end of a text or of a content, since what follows is nothing or
begins with a bracket, and a mark has no bracket but its first character. A content therefore goes
through merging unchanged (`mergeChars_append_of_free`), a run loses all its inner marks
(`mergeChars_run`), and its last closing mark stays because no opening follows it
(`behindOpening?_of_followedByRun`).
-/

set_option autoImplicit false

namespace EmailMarkup.Outlook

open EmailMarkup.Text

/-! ### Runs -/

/-- A further block of a run, with the text between it and the block before, if there is one. -/
structure Follower where
  gap? : Option String
  content : String

/-- A free text, or a run of plain blocks. -/
inductive Cluster
  | text (s : String)
  | run (first : String) (more : List Follower)

def Follower.segments (f : Follower) : List Segment :=
  f.gap?.toList.map .text ++ [.outlook f.content]

/-- The segments that a cluster is made of. -/
def Cluster.segments : Cluster → List Segment
  | .text s => [.text s]
  | .run first more => .outlook first :: more.flatMap Follower.segments

/-- What merging makes of a cluster. -/
def Cluster.joined : Cluster → Segment
  | .text s => .text s
  | .run first more => .outlook (first ++ String.join (more.map Follower.content))

/-- Whether the texts inside of a run are blank. -/
def Cluster.close : Cluster → Bool
  | .text _ => true
  | .run _ more => more.all fun f => f.gap?.all allBlank

/-- Whether clusters begin with a run, a blank text aside. -/
def followedByRun : List Cluster → Bool
  | .run _ _ :: _ => true
  | .text s :: .run _ _ :: _ => allBlank s
  | _ => false

/-- Whether no run could be longer. -/
def maximal : List Cluster → Bool
  | [] => true
  | .text _ :: rest => maximal rest
  | .run _ _ :: rest => !followedByRun rest && maximal rest

/-- The clusters are the segments, cut into maximal runs and the texts between them. -/
structure RunsOf (segments : List Segment) (clusters : List Cluster) : Prop where
  segments : clusters.flatMap Cluster.segments = segments
  close : ∀ g ∈ clusters, g.close = true
  maximal : maximal clusters = true

/-! ### Cutting a sequence into runs -/

/-- Puts a block in front of clusters: it begins a run, or goes in front of the one that follows. -/
def startRun (content : String) : List Cluster → List Cluster
  | .run first more :: rest => .run content (⟨none, first⟩ :: more) :: rest
  | .text s :: .run first more :: rest =>
    if allBlank s then .run content (⟨some s, first⟩ :: more) :: rest
    else .run content [] :: .text s :: .run first more :: rest
  | clusters => .run content [] :: clusters

/-- A block in front of a sequence can be put in front of its runs. -/
theorem RunsOf.startRun {segments : List Segment} {clusters : List Cluster}
    (h : RunsOf segments clusters) (content : String) :
    RunsOf (.outlook content :: segments) (startRun content clusters) := by
  obtain ⟨rfl, hclose, hmaximal⟩ := h
  fun_cases Outlook.startRun content clusters with
  | case1 first more rest =>
    refine ⟨by simp [Cluster.segments, Follower.segments], ?_, hmaximal⟩
    rw [List.forall_mem_cons] at hclose ⊢
    exact ⟨by simpa [Cluster.close] using hclose.1, hclose.2⟩
  | case2 s first more rest hblank =>
    refine ⟨by simp [Cluster.segments, Follower.segments], ?_, hmaximal⟩
    rw [List.forall_mem_cons, List.forall_mem_cons] at hclose
    rw [List.forall_mem_cons]
    exact ⟨by simpa [Cluster.close, hblank] using hclose.2.1, hclose.2.2⟩
  | case3 s first more rest hblank =>
    refine ⟨by simp [Cluster.segments], List.forall_mem_cons.mpr ⟨rfl, hclose⟩, ?_⟩
    rw [Outlook.maximal, hmaximal, followedByRun]
    simpa using hblank
  | case4 _ hrun hpadded =>
    refine ⟨by simp [Cluster.segments], List.forall_mem_cons.mpr ⟨rfl, hclose⟩, ?_⟩
    have hlast : followedByRun clusters = false := by
      fun_cases followedByRun clusters with
      | case1 first more rest => exact absurd rfl (hrun first more rest)
      | case2 s first more rest => exact absurd rfl (hpadded s first more rest)
      | case3 => rfl
    rw [Outlook.maximal, hmaximal, hlast]
    rfl

/-- Whether neither mark stands in a text. -/
def markless (s : String) : Bool :=
  !occursIn opening.toList s.toList && !occursIn closing.toList s.toList

theorem markless_iff {s : String} :
    markless s = true ↔ ¬ opening.toList <:+: s.toList ∧ ¬ closing.toList <:+: s.toList := by
  simp [markless, ← occursIn_iff]

/-- Whether a segment is a text or a plain block, without a mark in what it holds. -/
def Segment.unmarked : Segment → Bool
  | .text s => markless s
  | .outlook content => markless content
  | .negated _ _ => false

/-- Texts and plain blocks can be cut into runs. -/
theorem exists_runsOf {segments : List Segment} (hfree : ∀ s ∈ segments, s.unmarked = true) :
    ∃ clusters, RunsOf segments clusters := by
  induction segments with
  | nil => exact ⟨[], rfl, List.forall_mem_nil _, rfl⟩
  | cons s rest ih =>
    rw [List.forall_mem_cons] at hfree
    obtain ⟨clusters, hclusters⟩ := ih hfree.2
    cases s with
    | text s =>
      refine ⟨.text s :: clusters, ?_, List.forall_mem_cons.mpr ⟨rfl, hclusters.close⟩,
        hclusters.maximal⟩
      rw [List.flatMap_cons, hclusters.segments]
      rfl
    | outlook content => exact ⟨_, hclusters.startRun content⟩
    | negated office content => cases hfree.1

/-! ### Merging a run -/

theorem bracketed_opening (rest : List Char) : Bracketed (opening.toList ++ rest) := by
  obtain ⟨mark, hmark, -⟩ := opening_eq
  rw [hmark]
  exact bracketed_iff.mpr (.inr ⟨mark ++ rest, rfl⟩)

theorem bracketed_closing (rest : List Char) : Bracketed (closing.toList ++ rest) := by
  obtain ⟨mark, hmark, -⟩ := closing_eq
  rw [hmark]
  exact bracketed_iff.mpr (.inr ⟨mark ++ rest, rfl⟩)

/-- A text without a closing mark goes through merging unchanged. -/
theorem mergeChars_append_of_free {u rest : List Char} (h : ¬ closing.toList <:+: u)
    (hrest : Bracketed rest) : mergeChars (u ++ rest) = u ++ mergeChars rest := by
  rcases bracketed_iff.mp hrest with rfl | ⟨after, rfl⟩
  · rw [mergeChars_nil, List.append_nil, mergeChars_eq_self h]
  · induction u with
    | nil => rfl
    | cons c u ih =>
      rw [List.infix_cons_iff, not_or] at h
      have hnot : ¬ closing.toList <+: c :: (u ++ '<' :: after) := by
        obtain ⟨mark, hmark, hone⟩ := closing_eq
        rw [hmark] at h ⊢
        exact fun hbegins =>
          h.1 (prefix_of_prefix_append_bracket hone (List.cons_ne_nil c u) hbegins)
      rw [List.cons_append, mergeChars_cons (seam?_eq_none hnot), ih h.2, List.cons_append]

/-- A plain opening behind blanks is found. -/
theorem behindOpening?_blank {gap : List Char} (hgap : gap.all isBlank = true) (rest : List Char) :
    behindOpening? (gap ++ (opening.toList ++ rest)) = some rest := by
  obtain ⟨mark, hmark, -⟩ := opening_eq
  have htrim : trimLeft (gap ++ (opening.toList ++ rest)) = opening.toList ++ rest := by
    rw [hmark, List.cons_append, trimLeft_append_bracket, trimLeft,
      List.dropWhile_eq_nil_iff.mpr (List.all_eq_true.mp hgap), List.nil_append]
  rw [behindOpening?, htrim, after?_eq_some_iff]

theorem toList_print_outlook (content : String) (rest : List Char) :
    (Segment.outlook content).print.toList ++ rest =
      opening.toList ++ (content.toList ++ (closing.toList ++ rest)) := by
  simp [Segment.print, block]

/-- How a further block of a run is written. -/
theorem toList_printAll_follower (f : Follower) (rest : List Char) :
    (printAll f.segments).toList ++ rest = (f.gap?.getD "").toList ++
      (opening.toList ++ (f.content.toList ++ (closing.toList ++ rest))) := by
  cases f with
  | mk gap? content =>
    cases gap? with
    | none => simp [Follower.segments, printAll, Segment.print, block]
    | some gap => simp [Follower.segments, printAll, Segment.print, block]

/-- The marks between the blocks of a run go, with the blanks between them, and the last closing
mark stays. -/
theorem mergeChars_followers {more : List Follower} {rest : List Char}
    (hclose : ∀ f ∈ more, f.gap?.all allBlank = true)
    (hfree : ∀ f ∈ more, ¬ closing.toList <:+: f.content.toList)
    (hlast : behindOpening? rest = none) :
    mergeChars (closing.toList ++ ((printAll (more.flatMap Follower.segments)).toList ++ rest)) =
      (String.join (more.map Follower.content)).toList ++ (closing.toList ++ mergeChars rest) := by
  induction more with
  | nil => exact mergeChars_closing_of_none hlast
  | cons f more ih =>
    rw [List.forall_mem_cons] at hclose hfree
    have hgap : (f.gap?.getD "").toList.all isBlank = true := by
      cases hgap? : f.gap? with
      | none => rfl
      | some gap =>
        rw [hgap?] at hclose
        exact hclose.1
    rw [List.flatMap_cons, printAll_append, String.toList_append, List.append_assoc,
      toList_printAll_follower, mergeChars_closing_of_some (behindOpening?_blank hgap _),
      mergeChars_append_of_free hfree.1 (bracketed_closing _), ih hclose.2 hfree.2]
    simp

/-- A run becomes one block. -/
theorem mergeChars_run {first : String} {more : List Follower} {rest : List Char}
    (hclose : (Cluster.run first more).close = true)
    (hfirst : ¬ closing.toList <:+: first.toList)
    (hfree : ∀ f ∈ more, ¬ closing.toList <:+: f.content.toList)
    (hlast : behindOpening? rest = none) :
    mergeChars ((printAll (Cluster.run first more).segments).toList ++ rest) =
      (Cluster.run first more).joined.print.toList ++ mergeChars rest := by
  rw [Cluster.segments, toList_printAll_cons, List.append_assoc, toList_print_outlook,
    mergeChars_of_apart (by decide), mergeChars_append_of_free hfirst (bracketed_closing _),
    mergeChars_followers (List.all_eq_true.mp hclose) hfree hlast, Cluster.joined,
    toList_print_outlook]
  simp

/-! ### Merging all clusters -/

def Segment.isText : Segment → Bool
  | .text _ => true
  | _ => false

/-- What does not begin with a text begins with a bracket. -/
theorem bracketed_printAll {segments : List Segment} (h : ∀ s ∈ segments.head?, s.isText = false) :
    Bracketed (printAll segments).toList := by
  cases segments with
  | nil => exact bracketed_iff.mpr (.inl rfl)
  | cons s rest =>
    rw [toList_printAll_cons]
    cases s with
    | text s => cases h (.text s) rfl
    | outlook content =>
      rw [toList_print_outlook]
      exact bracketed_opening _
    | negated office content =>
      obtain ⟨tail, htail⟩ := negatedStart_begins office content
      rw [toList_print_negated, ← htail]
      exact bracketed_iff.mpr (.inr ⟨_, rfl⟩)

/-- A text that is not blank has no plain opening at its front, blanks aside, unless the opening
stands in the text. -/
theorem behindOpening?_text {u rest : List Char} (hfree : ¬ opening.toList <:+: u)
    (hrest : Bracketed rest) (hblank : rest = [] ∨ trimLeft u ≠ []) :
    behindOpening? (u ++ rest) = none := by
  have hsuffix : trimLeft u <:+ u := List.dropWhile_suffix _
  have hnot : ¬ opening.toList <+: trimLeft u :=
    fun hbegins => hfree (hbegins.isInfix.trans hsuffix.isInfix)
  rw [behindOpening?, after?_eq_none_iff]
  rcases bracketed_iff.mp hrest with rfl | ⟨after, rfl⟩
  · rwa [List.append_nil]
  · obtain ⟨mark, hmark, hone⟩ := opening_eq
    rw [trimLeft_append_bracket]
    rw [hmark] at hnot ⊢
    refine fun hbegins => hnot (prefix_of_prefix_append_bracket hone ?_ hbegins)
    exact hblank.resolve_left (List.cons_ne_nil _ _)

/-- No text stands next to another one. -/
def TextsApart (segments : List Segment) : Prop :=
  segments.IsChain fun s t => (s.isText && t.isText) = false

instance (segments : List Segment) : Decidable (TextsApart segments) :=
  inferInstanceAs (Decidable (segments.IsChain fun s t => (s.isText && t.isText) = false))

/-- What follows a text begins with a bracket. -/
theorem TextsApart.bracketed {s : String} {rest : List Segment}
    (h : TextsApart (.text s :: rest)) : Bracketed (printAll rest).toList := by
  refine bracketed_printAll fun t ht => ?_
  exact (List.isChain_cons.mp h).1 t ht

/-- No plain opening follows a run that could not be longer. -/
theorem behindOpening?_of_followedByRun {clusters : List Cluster}
    (h : followedByRun clusters = false)
    (hfree : ∀ s ∈ clusters.flatMap Cluster.segments, s.unmarked = true)
    (hapart : TextsApart (clusters.flatMap Cluster.segments)) :
    behindOpening? (printAll (clusters.flatMap Cluster.segments)).toList = none := by
  cases clusters with
  | nil => decide
  | cons g rest =>
    cases g with
    | run first more => cases h
    | text s =>
      have hs := markless_iff.mp (hfree (.text s) (by simp [Cluster.segments]))
      have hsegments : (Cluster.text s :: rest).flatMap Cluster.segments =
          .text s :: rest.flatMap Cluster.segments := rfl
      rw [hsegments] at hapart ⊢
      rw [toList_printAll_cons]
      refine behindOpening?_text hs.1 hapart.bracketed ?_
      cases rest with
      | nil => exact .inl rfl
      | cons next rest =>
        cases next with
        | text t =>
          have htexts := (List.isChain_cons.mp hapart).1 (.text t) rfl
          cases htexts
        | run first more =>
          -- The text is not blank, or the run before it would go on.
          refine .inr fun hnil => ?_
          rw [trimLeft, List.dropWhile_eq_nil_iff] at hnil
          have hblank : allBlank s = true := List.all_eq_true.mpr hnil
          rw [followedByRun, hblank] at h
          cases h

/-- Clusters that could not be longer are merged one by one. -/
theorem mergeChars_clusters {clusters : List Cluster} (hclose : ∀ g ∈ clusters, g.close = true)
    (hmaximal : maximal clusters = true)
    (hfree : ∀ s ∈ clusters.flatMap Cluster.segments, s.unmarked = true)
    (hapart : TextsApart (clusters.flatMap Cluster.segments)) :
    mergeChars (printAll (clusters.flatMap Cluster.segments)).toList =
      (printAll (clusters.map Cluster.joined)).toList := by
  induction clusters with
  | nil => exact mergeChars_nil
  | cons g rest ih =>
    rw [List.forall_mem_cons] at hclose
    rw [List.flatMap_cons, List.forall_mem_append] at hfree
    rw [List.flatMap_cons] at hapart
    have hrest : TextsApart (rest.flatMap Cluster.segments) := hapart.right_of_append
    rw [List.flatMap_cons, printAll_append, String.toList_append, List.map_cons,
      toList_printAll_cons]
    cases g with
    | text s =>
      have hs := markless_iff.mp (hfree.1 (.text s) List.mem_cons_self)
      have htext : (printAll (Cluster.text s).segments).toList = s.toList := by
        simp [Cluster.segments, printAll, Segment.print]
      have hbracketed : Bracketed (printAll (rest.flatMap Cluster.segments)).toList :=
        TextsApart.bracketed hapart
      rw [htext, mergeChars_append_of_free hs.2 hbracketed, ih hclose.2 hmaximal hfree.2 hrest]
      rfl
    | run first more =>
      rw [maximal, Bool.and_eq_true, Bool.not_eq_true'] at hmaximal
      have hfirst := markless_iff.mp (hfree.1 (.outlook first) List.mem_cons_self)
      have hmore : ∀ f ∈ more, ¬ closing.toList <:+: f.content.toList := by
        intro f hf
        have hmem : Segment.outlook f.content ∈ more.flatMap Follower.segments :=
          List.mem_flatMap.mpr ⟨f, hf, List.mem_append_right _ List.mem_cons_self⟩
        exact (markless_iff.mp (hfree.1 _ (List.mem_cons_of_mem _ hmem))).2
      have hlast := behindOpening?_of_followedByRun hmaximal.1 hfree.2 hrest
      rw [mergeChars_run hclose.1 hfirst.2 hmore hlast, ih hclose.2 hmaximal.2 hfree.2 hrest]

/-- Texts and plain blocks, of which no two texts stand next to each other and none holds a mark,
can be cut into maximal runs of blocks and the texts between them. However that is done, merging
makes one block of each run, with the contents of its blocks in it, and keeps the other texts. -/
theorem merge_joins_runs (segments : List Segment) (hfree : ∀ s ∈ segments, s.unmarked = true)
    (hapart : TextsApart segments) :
    (∃ clusters, RunsOf segments clusters) ∧
    ∀ clusters, RunsOf segments clusters →
      merge (printAll segments) = printAll (clusters.map Cluster.joined) := by
  refine ⟨exists_runsOf hfree, ?_⟩
  rintro clusters ⟨rfl, hclose, hmaximal⟩
  rw [merge, mergeChars_clusters hclose hmaximal hfree hapart, String.ofList_toList]

/-- Two runs, the first of three blocks, and texts that hold parts of marks. -/
def spacedClusters : List Cluster :=
  [.text "<!-", .run "<tr>" [⟨some "\n ", "<td>"⟩, ⟨none, " "⟩], .text " <![endif", .run "a" [],
    .text " "]

theorem spacedClusters_joined :
    (∀ s ∈ spacedClusters.flatMap Cluster.segments, s.unmarked = true) ∧
    TextsApart (spacedClusters.flatMap Cluster.segments) ∧
    merge (printAll (spacedClusters.flatMap Cluster.segments)) =
      "<!-<!--[if mso | IE]><tr><td> <![endif]--> <![endif<!--[if mso | IE]>a<![endif]--> " := by
  have hfree : ∀ s ∈ spacedClusters.flatMap Cluster.segments, s.unmarked = true := by decide +kernel
  have hapart : TextsApart (spacedClusters.flatMap Cluster.segments) := by decide +kernel
  refine ⟨hfree, hapart, ?_⟩
  rw [(merge_joins_runs _ hfree hapart).2 spacedClusters
    ⟨rfl, by decide +kernel, by decide +kernel⟩]
  decide +kernel

end EmailMarkup.Outlook
