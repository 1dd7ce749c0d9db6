import EmailMarkup.Proofs.Body.Columns
import EmailMarkup.Proofs.Page.Structure

/-!
# The style sheets for the widths of columns

The media queries of a document stand in two or three style sheets of its head, with the widths of
its columns as they were given. The number of a width is harmless, and so is its class, but its unit
is whatever follows the number. `mediaTags_isStyleElements_iff` says when the style sheets have no
bracket but those of their own tags: exactly if there is none in a unit that is written at all, and
of columns that share a class only the last one is written.
-/

set_option autoImplicit false

namespace EmailMarkup.Page

open EmailMarkup.Body EmailMarkup.Html EmailMarkup.Layout

/-! ### Style elements -/

/-- How a style element is written. -/
def styleText (pairs : List (String × String)) (css : String) : String :=
  startText "style" pairs ++ css ++ "</style>"

/-- A style element with no bracket in it but those of its tags. -/
structure StyleElement where
  pairs : List (String × String)
  css : String
  plain_pairs : PlainPairs pairs
  bracket_notMem : '<' ∉ css.toList

/-- Writes a style element. -/
def StyleElement.print (e : StyleElement) : String :=
  styleText e.pairs e.css

/-- A text that is a number of such style elements and nothing else. -/
def IsStyleElements (number : Nat) (text : String) : Prop :=
  ∃ elements : List StyleElement, elements.length = number ∧
    text = String.join (elements.map StyleElement.print)

/-- A start tag has one bracket. -/
theorem count_startText {pairs : List (String × String)} (h : PlainPairs pairs) :
    (startText "style" pairs).toList.count '<' = 1 := by
  have hname : ("<" ++ "style").toList.count '<' = 1 := by decide
  have hend : ">".toList.count '<' = 0 := by decide
  rw [startText, String.toList_append, String.toList_append, List.count_append, List.count_append,
    hname, hend, List.count_eq_zero.mpr]
  -- There is none in what is written for a pair.
  rw [String.toList_join, List.flatMap_map, List.mem_flatMap]
  rintro ⟨⟨key, value⟩, hpair, hmem⟩
  obtain ⟨hkey, -, hvalue⟩ := h _ hpair
  have hkey : '<' ∉ key.toList := by
    intro hmem
    simp only [isPlainKey, Bool.and_eq_true, List.all_eq_true, bne_iff_ne] at hkey
    exact (hkey.2 '<' hmem).2 rfl
  simp [hkey, hvalue] at hmem

theorem count_styleText {pairs : List (String × String)} (h : PlainPairs pairs) (css : String) :
    (styleText pairs css).toList.count '<' = 2 + css.toList.count '<' := by
  rw [styleText, String.toList_append, String.toList_append, List.count_append, List.count_append,
    count_startText h]
  have hend : "</style>".toList.count '<' = 1 := by decide
  omega

theorem IsStyleElements.count_eq {number : Nat} {text : String} (h : IsStyleElements number text) :
    text.toList.count '<' = 2 * number := by
  obtain ⟨elements, rfl, rfl⟩ := h
  induction elements with
  | nil => rfl
  | cons e elements ih =>
    have hcons : (String.join ((e :: elements).map StyleElement.print)).toList =
        e.print.toList ++ (String.join (elements.map StyleElement.print)).toList := by
      simp
    have hcss := List.count_eq_zero.mpr e.bracket_notMem
    rw [hcons, List.count_append, ih, StyleElement.print, count_styleText e.plain_pairs,
      List.length_cons]
    omega

/-! ### Queries -/

theorem styleTag_eq (css : String) : styleTag css = styleText cssPairs css :=
  congrArg (· ++ css ++ "</style>") startText_css.symm

/-- How many style sheets there are for columns. -/
def sheetNumber (queries : OrderedMap String) (forceOwa : Bool) : Nat :=
  if queries.isEmpty then 0 else if forceOwa then 3 else 2

/-- The style sheets for columns, if there are any. -/
theorem mediaTags_eq (breakpoint : String) {queries : OrderedMap String} (forceOwa : Bool)
    (h : queries.isEmpty = false) :
    mediaTags breakpoint queries forceOwa =
      styleText cssPairs ("@media only screen and (min-width:" ++ breakpoint ++ ") \x7b " ++
        columnRules "" queries ++ " \x7d") ++
      styleText (mediaPairs breakpoint) (columnRules ".moz-text-html " queries) ++
      if forceOwa then styleText cssPairs (columnRules "[owa] " queries) else "" := by
  rw [mediaTags, h, if_neg Bool.false_ne_true, styleTag_eq, styleTag_eq,
    styleText.eq_def (mediaPairs _), startText_media]
  simp only [String.append_assoc]

theorem plainQueries_of_notMem {context : String} {queries : OrderedMap String}
    (h : '<' ∉ (columnRules context queries).toList) : PlainQueries queries := by
  intro entry hentry
  rw [columnRules, String.toList_join, List.flatMap_map, List.mem_flatMap] at h
  have hrule := fun hmem => h ⟨entry, hentry, hmem⟩
  constructor
  · intro hname
    exact hrule (by simp [hname])
  · intro hquery
    exact hrule (by simp [hquery])

theorem plainQueries_of_isEmpty {queries : OrderedMap String} (h : queries.isEmpty = true) :
    PlainQueries queries := by
  intro entry hentry
  rw [List.isEmpty_iff.mp h] at hentry
  cases hentry

/-- The rules stand in the style sheets as they are, so the brackets of the style sheets are those
of their tags exactly if the rules have none. -/
theorem isStyleElements_iff_plainQueries (breakpoint : String) (queries : OrderedMap String)
    (forceOwa : Bool) :
    IsStyleElements (sheetNumber queries forceOwa)
      (mediaTags (escapeAttribute breakpoint) queries forceOwa) ↔ PlainQueries queries := by
  cases hempty : queries.isEmpty with
  | true =>
    refine iff_of_true ⟨[], ?_, ?_⟩ (plainQueries_of_isEmpty hempty)
    · rw [sheetNumber, if_pos hempty]
      rfl
    · rw [mediaTags, if_pos hempty]
      rfl
  | false =>
    rw [sheetNumber, mediaTags_eq _ _ hempty, hempty, if_neg Bool.false_ne_true]
    constructor
    · intro helements
      have hcount := helements.count_eq
      rw [String.toList_append, String.toList_append, List.count_append, List.count_append,
        count_styleText plainPairs_css, count_styleText (plainPairs_media breakpoint)] at hcount
      refine plainQueries_of_notMem (List.count_eq_zero.mp ?_ :
        '<' ∉ (columnRules ".moz-text-html " queries).toList)
      cases forceOwa with
      | true =>
        rw [if_pos rfl, if_pos rfl, count_styleText plainPairs_css] at hcount
        omega
      | false =>
        have howa : "".toList.count '<' = 0 := rfl
        rw [if_neg Bool.false_ne_true, if_neg Bool.false_ne_true] at hcount
        omega
    · intro hplain
      have hrules := fun context hcontext => bracket_notMem_columnRules context hcontext hplain
      have hcolumns : '<' ∉ ("@media only screen and (min-width:" ++ escapeAttribute breakpoint ++
          ") \x7b " ++ columnRules "" queries ++ " \x7d").toList := by
        simp [hrules "", (notMem_escaped breakpoint).2]
      let columns : StyleElement := ⟨cssPairs, _, plainPairs_css, hcolumns⟩
      let media : StyleElement :=
        ⟨_, _, plainPairs_media breakpoint, hrules ".moz-text-html " (by decide)⟩
      let owa : StyleElement := ⟨cssPairs, _, plainPairs_css, hrules "[owa] " (by decide)⟩
      cases forceOwa with
      | true =>
        refine ⟨[columns, media, owa], rfl, ?_⟩
        rw [← String.toList_inj]
        simp [columns, media, owa, StyleElement.print]
      | false =>
        refine ⟨[columns, media], rfl, ?_⟩
        rw [← String.toList_inj]
        simp [columns, media, StyleElement.print]

/-! ### Units -/

theorem bracket_mem_mediaQuery_iff (w : Width) :
    '<' ∈ (Notes.mediaQuery w.text).toList ↔ '<' ∈ w.unit.toList := by
  have hnumber : '<' ∉ (Number.text w.value).toList := by
    intro hmem
    exact absurd (Number.isNumberChar_of_mem_text hmem) (by decide)
  simp [Notes.mediaQuery, Width.text, hnumber]

theorem bracket_notMem_className (w : Width) : '<' ∉ (Column.className w).toList := by
  intro hmem
  exact absurd (Column.isNumberChar_of_mem_className hmem) (by decide)

section

variable {s : Setting} {width : Float} {siblings : Siblings} {n : Markup.Node} {d : Drawing}

/-- There are queries exactly if there are columns. -/
theorem isEmpty_mediaQueries (h : draw s width siblings n = .ok d) :
    d.notes.mediaQueries.isEmpty = (columnsOf s siblings n).isEmpty := by
  cases hcolumns : columnsOf s siblings n with
  | nil =>
    rw [Notes.mediaQueries, columns_draw h, hcolumns]
    rfl
  | cons c columns =>
    have hc : c ∈ columnsOf s siblings n := hcolumns ▸ List.mem_cons_self
    obtain ⟨last, hlast, -⟩ := Column.exists_lastLike? hc
    have hquery := get?_mediaQueries_className h c
    rw [hlast] at hquery
    exact List.isEmpty_eq_false_iff_exists_mem.mpr ⟨_, OrderedMap.mem_entries_of_get? hquery⟩

/-- What the queries of a drawing are free of, the units of the columns that count are free of. -/
theorem plainQueries_iff_units (h : draw s width siblings n = .ok d) :
    PlainQueries d.notes.mediaQueries ↔
      ∀ c ∈ columnsOf s siblings n, ∀ last ∈ Column.lastLike? (columnsOf s siblings n) c,
        '<' ∉ (Column.declaredWidth last).unit.toList := by
  constructor
  · intro hplain c hc last hlast
    have hquery := get?_mediaQueries_className h c
    rw [Option.mem_def.mp hlast] at hquery
    have hentry := hplain _ (OrderedMap.mem_entries_of_get? hquery)
    exact mt (bracket_mem_mediaQuery_iff _).mpr hentry.2
  · intro hunits entry hentry
    have hstored : d.notes.mediaQueries.get? entry.1 = some entry.2 :=
      OrderedMap.lookup_of_mem (OrderedMap.nodup_keys _) hentry
    -- The entry was made for some column, and its class has the query of the last one like it.
    have hclass := hstored
    rw [get?_mediaQueries h] at hclass
    obtain ⟨c, hlast, -⟩ := Option.map_eq_some_iff.mp hclass
    obtain ⟨hc, hname⟩ := List.mem_filter.mp (List.mem_of_getLast? hlast)
    rw [← of_decide_eq_true hname] at hstored ⊢
    rw [get?_mediaQueries_className h] at hstored
    obtain ⟨last, hlast, hquery⟩ := Option.map_eq_some_iff.mp hstored
    rw [← hquery, bracket_mem_mediaQuery_iff]
    exact ⟨bracket_notMem_className _, hunits c hc last hlast⟩

end

/-- The style sheets for the columns of a drawing are two, or three for Outlook on the web, and
their brackets are those of their own tags exactly if no unit that they state has one. A class
states the unit of the last column that has it. -/
theorem mediaTags_isStyleElements_iff (s : Setting) (width : Float) (siblings : Siblings)
    (n : Markup.Node) (breakpoint : String) (forceOwa : Bool) {d : Drawing}
    (hdraw : draw s width siblings n = .ok d) :
    let columns := columnsOf s siblings n
    IsStyleElements (if columns.isEmpty then 0 else if forceOwa then 3 else 2)
        (mediaTags (escapeAttribute breakpoint) d.notes.mediaQueries forceOwa) ↔
      ∀ c ∈ columns, ∀ last ∈ Column.lastLike? columns c,
        '<' ∉ (Column.declaredWidth last).unit.toList := by
  intro columns
  rw [← plainQueries_iff_units hdraw, ← isStyleElements_iff_plainQueries breakpoint _ forceOwa,
    sheetNumber, isEmpty_mediaQueries hdraw]

/-- A bracket in a unit does no harm, if a later column has the same class. -/
theorem mediaTags_overwritten_bracket :
    ∃ d, draw coreSetting 600 .single (rowOf ["10<", "10px"]) = .ok d ∧
      IsStyleElements 2 (mediaTags (escapeAttribute "480px") d.notes.mediaQueries false) := by
  obtain ⟨d, -, -, hdraw, -⟩ :=
    exists_drawn coreSetting 600 .single (rowOf ["10<", "10px"]) (fun _ => true) (by decide +kernel)
  have helements := (mediaTags_isStyleElements_iff coreSetting 600 .single (rowOf ["10<", "10px"])
    "480px" false hdraw).mpr (by decide +kernel)
  exact ⟨d, hdraw, helements⟩

/-- A unit with a bracket stands in the style sheets as it is. -/
theorem mediaTags_bracket_in_unit :
    ∃ d, draw coreSetting 600 .single (rowOf ["10<"]) = .ok d ∧
      d.notes.mediaQueries.entries =
        [("mj-column-px-10", "\x7b width:10< !important; max-width: 10<; \x7d")] ∧
      ¬ IsStyleElements 2 (mediaTags (escapeAttribute "480px") d.notes.mediaQueries false) := by
  obtain ⟨d, -, -, hdraw, -⟩ :=
    exists_drawn coreSetting 600 .single (rowOf ["10<"]) (fun _ => true) (by decide +kernel)
  have hcolumns : d.notes.columns = [("mj-column-px-10", "10<")] := by
    rw [columns_draw hdraw]
    decide +kernel
  have hnumber : sheetNumber d.notes.mediaQueries false = 2 := by
    rw [Notes.mediaQueries, hcolumns]
    rfl
  refine ⟨d, hdraw, ?_, ?_⟩
  · rw [Notes.mediaQueries, hcolumns]
    decide +kernel
  · rw [← hnumber, isStyleElements_iff_plainQueries, Notes.mediaQueries, hcolumns]
    decide +kernel

end EmailMarkup.Page
