import EmailMarkup.Command.Files
import EmailMarkup.Proofs.Fallible
import EmailMarkup.Proofs.OrderedMap
import EmailMarkup.Proofs.Text

/-!
# Laws of files

A path that leads anywhere leads along its route (`locate_eq_ok`), and whether it does depends on
the directories alone. So writing a file changes what is read under its own route and nothing else
(`read_write_self`, `read_write_of_ne`).

The route of a path in a directory is that of the directory and one name more
(`route_inDirectory`), and files with different names in a directory are kept apart
(`fileKey_inDirectory_inj`).
-/

set_option autoImplicit false

namespace EmailMarkup.Command

open EmailMarkup.Text

variable {name path text directory : String} {f g : Files} {names names' : List String}

/-! ### Routes -/

/-- A slash divides a path, so paths that are joined by one have the pieces of both. -/
theorem pieces_append_slash (front rest : String) :
    pieces (front ++ "/" ++ rest) = pieces front ++ pieces rest := by
  have hsplit := splitWhere_append_cons (p := (· == '/')) (x := '/') rfl front.toList rest.toList
  simp [pieces, hsplit]

theorem pieces_of_notMem (h : '/' ∉ name.toList) : pieces name = [name] := by
  have hsplit : splitWhere (· == '/') name.toList = [name.toList] := by
    refine splitWhere_of_forall fun c hc => beq_eq_false_iff_ne.mpr ?_
    rintro rfl
    exact h hc
  simp [pieces, hsplit]

/-- No piece of a path has a slash in it. -/
theorem slash_notMem_of_mem_pieces (h : name ∈ pieces path) : '/' ∉ name.toList := by
  obtain ⟨cs, hcs, rfl⟩ := List.mem_map.mp h
  intro hslash
  rw [String.toList_ofList] at hslash
  exact absurd (forall_of_mem_splitWhere hcs '/' hslash) (by decide)

theorem follow_of_skipped {piece : String} (h : (piece.isEmpty || piece = ".") = true)
    (names : List String) : follow names piece = names := by
  rw [follow, if_pos h]

/-- A name leads one directory deeper. The empty name and the two dots are none. -/
theorem follow_of_name (h : namesPlace name = false) (names : List String) :
    follow names name = names ++ [name] := by
  simp only [namesPlace, Bool.or_eq_false_iff, decide_eq_false_iff_not] at h
  rw [follow, if_neg (by simp [h]), if_neg h.2]

/-- Two dots lead further out only from the start, or from where only dots have led to. -/
theorem follow_dots (names : List String) :
    (follow names ".." = names ++ [".."] ∧ (names = [] ∨ ∃ front, names = front ++ [".."])) ∨
      follow names ".." = names ∨ follow names ".." = names.dropLast := by
  rw [follow, if_neg (by decide), if_pos rfl]
  split
  · rename_i hlast
    exact .inl ⟨rfl, .inl (List.getLast?_eq_none_iff.mp hlast)⟩
  · rename_i hlast
    exact .inl ⟨rfl, .inr (List.getLast?_eq_some_iff.mp hlast)⟩
  · exact .inr (.inl rfl)
  · exact .inr (.inr rfl)

/-- In a route, only dots stand before dots. -/
def DotsFirst (names : List String) : Prop :=
  ∀ front, front ++ [".."] <+: names → ∀ name ∈ front, name = ".."

/-- Going on by one piece keeps the dots at the front. -/
theorem DotsFirst.follow {names : List String} (h : DotsFirst names) (piece : String) :
    DotsFirst (Command.follow names piece) := by
  by_cases hplace : namesPlace piece = true
  · by_cases hdots : piece = ".."
    · subst hdots
      rcases follow_dots names with ⟨hfollow, hlast⟩ | hfollow | hfollow
      · rw [hfollow]
        intro front hfront name hname
        rcases List.prefix_concat_iff.mp hfront with heq | hfront
        · rw [List.append_cancel_right heq] at hname
          rcases hlast with rfl | ⟨init, rfl⟩
          · cases hname
          · rcases List.mem_append.mp hname with hname | hname
            · exact h init (List.prefix_refl _) name hname
            · exact List.mem_singleton.mp hname
        · exact h front hfront name hname
      · rwa [hfollow]
      · rw [hfollow]
        intro front hfront
        exact h front (hfront.trans (List.dropLast_prefix names))
    · rw [follow_of_skipped (by simpa [namesPlace, hdots] using hplace)]
      exact h
  · rw [Bool.not_eq_true] at hplace
    rw [follow_of_name hplace]
    intro front hfront
    rcases List.prefix_concat_iff.mp hfront with heq | hfront
    · have hpiece := (List.append_inj_right' heq rfl)
      cases hpiece
      cases hplace
    · exact h front hfront

/-- In a route two dots stand at the front only: everywhere else they have led back. -/
theorem dotsFirst_route (path : String) : DotsFirst (route path) := by
  have hfold : ∀ (parts : List String) (names : List String), DotsFirst names →
      DotsFirst (parts.foldl follow names) := by
    intro parts
    induction parts with
    | nil => exact fun names h => h
    | cons piece parts ih => exact fun names h => ih _ (h.follow piece)
  refine hfold _ _ ?_
  intro front hfront
  have horigin : (origin path).length ≤ 1 := by
    unfold origin
    split <;> decide
  have hlength := hfront.length_le
  rw [List.length_append, List.length_singleton] at hlength
  rw [List.eq_nil_of_length_eq_zero (show front.length = 0 by omega)]
  exact List.forall_mem_nil _

/-- After the last name of a path there are only pieces that lead nowhere. -/
theorem pieces_of_lastName? (h : lastName? path = some name) :
    namesPlace name = false ∧ ∃ before skipped, pieces path = before ++ name :: skipped ∧
      ∀ piece ∈ skipped, (piece.isEmpty || piece = ".") = true := by
  unfold lastName? at h
  split at h
  · rename_i last before hdrop
    obtain ⟨hsplit, hfirst⟩ := of_dropWhile_eq_cons hdrop
    split at h
    · cases h
    · rename_i hdots
      cases h
      have hpieces := congrArg List.reverse hsplit
      rw [List.reverse_reverse, List.reverse_append, List.reverse_cons, List.append_assoc]
        at hpieces
      refine ⟨?_, before.reverse, _, hpieces, fun piece hpiece => ?_⟩
      · rw [namesPlace, hfirst, decide_eq_false hdots]
        rfl
      · have htaken := List.mem_reverse.mp hpiece
        exact List.mem_takeWhile_imp (p := fun name : String => name.isEmpty || name = ".") htaken
  · cases h

/-- Pieces that lead nowhere do not matter. -/
theorem foldl_follow_of_skipped {skipped : List String}
    (h : ∀ piece ∈ skipped, (piece.isEmpty || piece = ".") = true) (names : List String) :
    skipped.foldl follow names = names := by
  induction skipped with
  | nil => rfl
  | cons piece skipped ih =>
    obtain ⟨hpiece, hskipped⟩ := List.forall_mem_cons.mp h
    rw [List.foldl_cons, follow_of_skipped hpiece, ih hskipped]

/-- The route of a path ends with its last name. -/
theorem route_of_lastName? (h : lastName? path = some name) :
    ∃ front, route path = front ++ [name] := by
  obtain ⟨hplace, before, skipped, hpieces, hskipped⟩ := pieces_of_lastName? h
  refine ⟨before.foldl follow (origin path), ?_⟩
  rw [route, hpieces, List.foldl_append, List.foldl_cons, foldl_follow_of_skipped hskipped,
    follow_of_name hplace]

theorem slash_notMem_lastName? (h : lastName? path = some name) : '/' ∉ name.toList := by
  obtain ⟨-, before, skipped, hpieces, -⟩ := pieces_of_lastName? h
  have hmem : name ∈ pieces path := by
    rw [hpieces]
    exact List.mem_append_right _ List.mem_cons_self
  exact slash_notMem_of_mem_pieces hmem

/-- A path in a directory begins where the directory does, unless the directory is the empty path.
-/
theorem origin_inDirectory (h : directory.isEmpty = false) (name : String) :
    origin (inDirectory directory name) = origin directory := by
  obtain ⟨c, cs, hcs⟩ : ∃ c cs, directory.toList = c :: cs := by
    rw [String.isEmpty_eq_false_iff] at h
    exact List.exists_cons_of_ne_nil (mt String.toList_eq_nil_iff.mp h)
  unfold origin inDirectory
  split <;> simp [hcs]

/-- A name in a directory is one piece more. -/
theorem route_inDirectory (hdirectory : directory.isEmpty = false) (hname : '/' ∉ name.toList) :
    route (inDirectory directory name) = follow (route directory) name := by
  rw [route, origin_inDirectory hdirectory, inDirectory, hdirectory, Bool.false_or]
  by_cases hslash : directory.toList.getLast? = some '/'
  · -- The slash at the end makes an empty piece, which leads nowhere.
    obtain ⟨front, rfl⟩ : ∃ front, directory = front ++ "/" ++ "" := by
      obtain ⟨cs, hcs⟩ := List.getLast?_eq_some_iff.mp hslash
      refine ⟨String.ofList cs, ?_⟩
      rw [← String.toList_inj, hcs]
      simp
    have hempty : pieces "" = [""] := pieces_of_notMem (by decide)
    rw [if_pos (beq_iff_eq.mpr hslash), route, String.append_empty, pieces_append_slash,
      pieces_of_notMem hname, ← @String.append_empty (front ++ "/"), pieces_append_slash, hempty,
      List.foldl_append, List.foldl_append]
    rfl
  · rw [if_neg (by simpa using hslash), pieces_append_slash, pieces_of_notMem hname,
      List.foldl_append]
    rfl

/-! ### Where paths lead -/

/-- Where the text of a file is kept. -/
def fileKey (path : String) : String :=
  ofRoute (route path)

/-- The text of a route ends with its last name. -/
theorem exists_ofRoute_concat (names : List String) :
    ∃ front, ∀ name, (ofRoute (names ++ [name])).toList = front ++ name.toList := by
  induction names with
  | nil => exact ⟨[], fun name => by simp [ofRoute]⟩
  | cons first names ih =>
    obtain ⟨front, hfront⟩ := ih
    refine ⟨first.toList ++ ['/'] ++ front, fun name => ?_⟩
    rw [List.append_assoc, ← hfront, ofRoute, ofRoute, String.toList_intercalate,
      String.toList_intercalate]
    cases names with
    | nil => simp
    | cons second names => simp [List.intercalate_cons_cons]

/-- Files with different names in a directory are kept apart. -/
theorem fileKey_inDirectory_inj {name' : String} (hdirectory : directory.isEmpty = false)
    (hname : '/' ∉ name.toList) (hname' : '/' ∉ name'.toList) (hplace : namesPlace name = false)
    (hplace' : namesPlace name' = false)
    (h : fileKey (inDirectory directory name) = fileKey (inDirectory directory name')) :
    name = name' := by
  obtain ⟨front, hfront⟩ := exists_ofRoute_concat (route directory)
  rw [fileKey, fileKey, route_inDirectory hdirectory hname, route_inDirectory hdirectory hname',
    follow_of_name hplace, follow_of_name hplace', ← String.toList_inj, hfront, hfront] at h
  exact String.toList_inj.mp (List.append_cancel_left h)

/-- The key of a file ends with its name. -/
theorem suffix_fileKey (h : lastName? path = some name) :
    name.toList <:+ (fileKey path).toList := by
  obtain ⟨names, hroute⟩ := route_of_lastName? h
  obtain ⟨front, hfront⟩ := exists_ofRoute_concat names
  rw [fileKey, hroute, hfront]
  exact List.suffix_append _ _

namespace Files

/-- One step along a path succeeds exactly from a directory, and goes where the piece leads. -/
theorem step_eq_ok {piece : String} :
    f.step names piece = .ok names' ↔
      f.hasDirectory names = true ∧ follow names piece = names' := by
  unfold step
  split
  · simp [*]
  · split <;> simp [*]

/-- The steps of a path that succeed follow its route, and whether they do depends on the
directories. -/
theorem foldlM_step {parts : List String} (h : parts.foldlM f.step names = .ok names') :
    names' = parts.foldl follow names ∧
      ∀ g : Files, g.directories = f.directories → parts.foldlM g.step names = .ok names' := by
  induction parts generalizing names with
  | nil =>
    cases h
    exact ⟨rfl, fun g _ => rfl⟩
  | cons piece parts ih =>
    rw [List.foldlM_cons] at h
    obtain ⟨next, hnext, hrest⟩ := exists_of_bind h
    obtain ⟨hhas, hfollow⟩ := step_eq_ok.mp hnext
    obtain ⟨hroute, hcongr⟩ := ih hrest
    refine ⟨by rw [List.foldl_cons, hfollow, hroute], fun g hg => ?_⟩
    have hstep : g.step names piece = .ok next := by
      refine step_eq_ok.mpr ⟨?_, hfollow⟩
      rw [hasDirectory, hg]
      exact hhas
    rw [List.foldlM_cons, hstep]
    exact hcongr g hg

/-- A path that leads anywhere leads along its route. -/
theorem locate_eq_ok (h : f.locate path = .ok names) :
    names = route path ∧
      ∀ g : Files, g.directories = f.directories → g.locate path = .ok names := by
  unfold locate at h ⊢
  split at h
  · cases h
  · rename_i hempty
    split at h
    · cases h
    · rename_i hlong
      obtain ⟨hroute, hcongr⟩ := foldlM_step h
      refine ⟨hroute, fun g hg => ?_⟩
      rw [if_neg hempty, if_neg hlong]
      exact hcongr g hg

/-- A path leads to where a file is, or could be. -/
structure Reaches (f : Files) (path : String) : Prop where
  located : f.locate path = .ok (route path)
  notDirectory : f.hasDirectory (route path) = false
  fits : endsTooLong (route path) = false

/-- What can be reached depends on the directories only, so writing a file changes nothing about it.
-/
theorem Reaches.congr (h : f.Reaches path) (hg : g.directories = f.directories) :
    g.Reaches path where
  located := (locate_eq_ok h.located).2 g hg
  notDirectory := by
    rw [hasDirectory, hg]
    exact h.notDirectory
  fits := h.fits

/-- A file is read under its key. -/
theorem read_eq_ok_iff :
    f.read path = .ok text ↔ f.Reaches path ∧ f.texts.get? (fileKey path) = some text := by
  constructor
  · intro h
    unfold read at h
    obtain ⟨names, hlocate, h⟩ := exists_of_bind h
    obtain ⟨rfl, -⟩ := locate_eq_ok hlocate
    cases hhas : f.hasDirectory (route path) with
    | true =>
      rw [hhas] at h
      cases h
    | false =>
      rw [hhas] at h
      cases hfits : endsTooLong (route path) with
      | true =>
        rw [hfits] at h
        cases h
      | false =>
        rw [hfits] at h
        cases htext : f.texts.get? (ofRoute (route path)) with
        | none =>
          rw [htext] at h
          cases h
        | some found =>
          rw [htext] at h
          cases h
          exact ⟨⟨hlocate, hhas, hfits⟩, htext⟩
  · rintro ⟨⟨hlocate, hhas, hfits⟩, htext⟩
    rw [fileKey] at htext
    rw [read, hlocate]
    show (if f.hasDirectory (route path) then _ else _) = _
    rw [hhas, hfits]
    simp only [htext]
    rfl

/-- A file is written under its key. -/
theorem exists_of_write (h : f.write path text = .ok g) :
    f.Reaches path ∧ path.toList.getLast? ≠ some '/' ∧
      g = { f with texts := f.texts.insert (fileKey path) text } := by
  unfold write at h
  generalize hbare : String.ofList (path.toList.reverse.dropWhile (· == '/')).reverse = bare at h
  obtain ⟨names, hlocate, h⟩ := exists_of_bind h
  obtain ⟨rfl, -⟩ := locate_eq_ok hlocate
  by_cases hpath : bare = path
  · subst hpath
    cases hhas : f.hasDirectory (route bare) with
    | true =>
      rw [hhas, Bool.or_true] at h
      cases h
    | false =>
      rw [hhas, Bool.or_false, if_neg (by simp)] at h
      cases hfits : endsTooLong (route bare) with
      | true =>
        rw [hfits] at h
        cases h
      | false =>
        rw [hfits] at h
        cases h
        refine ⟨⟨hlocate, hhas, hfits⟩, fun hslash => ?_, rfl⟩
        have hsame := congrArg (fun s => s.toList.reverse) hbare
        simp only [String.toList_ofList, List.reverse_reverse] at hsame
        have hhead := List.head?_dropWhile_not (· == '/') bare.toList.reverse
        rw [hsame, List.head?_reverse, hslash] at hhead
        cases hhead
  · rw [decide_eq_true hpath, Bool.true_or] at h
    cases h

/-- A path to a directory is not empty. -/
theorem of_isDirectory (h : f.isDirectory path = true) :
    path.isEmpty = false ∧ f.hasDirectory (route path) = true := by
  unfold isDirectory at h
  split at h
  · rename_i names hlocate
    obtain ⟨rfl, -⟩ := locate_eq_ok hlocate
    refine ⟨Bool.eq_false_iff.mpr fun hempty => ?_, h⟩
    rw [locate, if_pos hempty] at hlocate
    cases hlocate
  · cases h

/-- Nor does it change what is a directory. -/
theorem isDirectory_congr (h : f.isDirectory path = true) (hg : g.directories = f.directories) :
    g.isDirectory path = true := by
  unfold isDirectory at h
  split at h
  · rename_i names hlocate
    rw [isDirectory, (locate_eq_ok hlocate).2 g hg]
    show g.hasDirectory names = true
    rw [hasDirectory, hg]
    exact h
  · cases h

/-- What a directory is in is a directory. -/
theorem hasDirectory_of_prefix (hle : names <+: names') (h : f.hasDirectory names' = true) :
    f.hasDirectory names = true := by
  rw [hasDirectory, Bool.or_eq_true] at h ⊢
  rcases h with h | h
  · left
    rw [List.all_eq_true] at h ⊢
    exact fun name hname => h name (hle.subset hname)
  · right
    obtain ⟨d, hd, hnames⟩ := List.any_eq_true.mp h
    refine List.any_eq_true.mpr ⟨d, hd, ?_⟩
    rw [List.isPrefixOf_iff_prefix] at hnames ⊢
    exact hle.trans hnames

/-- Two dots lead from a directory to a directory. -/
theorem hasDirectory_follow_dots (hdots : DotsFirst names) (h : f.hasDirectory names = true) :
    f.hasDirectory (follow names "..") = true := by
  rcases follow_dots names with ⟨hfollow, hlast⟩ | hfollow | hfollow
  · rw [hfollow, hasDirectory, Bool.or_eq_true]
    left
    rw [List.all_eq_true]
    intro name hname
    have hname : name = ".." := by
      rcases hlast with rfl | ⟨front, rfl⟩
      · exact List.mem_singleton.mp hname
      · rw [List.append_assoc] at hname
        rcases List.mem_append.mp hname with hname | hname
        · exact hdots front (List.prefix_refl _) name hname
        · simpa using hname
    rw [hname]
    rfl
  · rwa [hfollow]
  · rw [hfollow]
    exact hasDirectory_of_prefix (List.dropLast_prefix names) h

/-- No file in a directory has the name of a place. -/
theorem write_namesPlace (hdirectory : f.isDirectory directory = true)
    (hname : namesPlace name = true) : f.write (inDirectory directory name) text ≠ .ok g := by
  intro hwrite
  obtain ⟨⟨-, hfree, -⟩, hslash, -⟩ := exists_of_write hwrite
  obtain ⟨hempty, hhas⟩ := of_isDirectory hdirectory
  simp only [namesPlace, Bool.or_eq_true, decide_eq_true_eq] at hname
  rcases hname with (hname | rfl) | rfl
  · rw [String.isEmpty_iff] at hname
    subst hname
    unfold inDirectory at hslash
    split at hslash
    · rename_i hend
      rw [hempty, Bool.false_or, beq_iff_eq] at hend
      rw [String.append_empty] at hslash
      exact hslash hend
    · simp at hslash
  · rw [route_inDirectory hempty (by decide), follow_of_skipped (by decide), hhas] at hfree
    cases hfree
  · rw [route_inDirectory hempty (by decide),
      hasDirectory_follow_dots (dotsFirst_route directory) hhas] at hfree
    cases hfree

/-- A file has the text that was written. -/
theorem read_write_self (h : f.write path text = .ok g) : g.read path = .ok text := by
  obtain ⟨hreaches, -, rfl⟩ := exists_of_write h
  exact read_eq_ok_iff.mpr ⟨hreaches.congr rfl, OrderedMap.get?_insert_self _ _ _⟩

/-- All other files stay as they were. -/
theorem read_write_of_ne {other : String} (h : f.write path text = .ok g)
    (hne : fileKey other ≠ fileKey path) (found : String) :
    g.read other = .ok found ↔ f.read other = .ok found := by
  obtain ⟨-, -, rfl⟩ := exists_of_write h
  rw [read_eq_ok_iff, read_eq_ok_iff, OrderedMap.get?_insert_of_ne _ _ hne]
  exact and_congr_left fun _ => ⟨fun h => h.congr rfl, fun h => h.congr rfl⟩

end Files

/-! ### Names of documents -/

/-- The last dot is the first one from the end. -/
theorem dropWhile_reverse_dot {ext : List Char} (hext : '.' ∉ ext) (before : List Char) :
    (before ++ '.' :: ext).reverse.dropWhile (· != '.') = '.' :: before.reverse := by
  rw [List.reverse_append, List.reverse_cons, List.append_assoc, List.singleton_append,
    dropWhile_bne_append (by simpa using hext)]

/-- A name loses what follows its last dot, unless the dot comes first. -/
theorem stem_ofList {before ext : List Char} (hbefore : before ≠ []) (hext : '.' ∉ ext) :
    stem (String.ofList (before ++ '.' :: ext)) = String.ofList before := by
  unfold stem
  simp only [String.toList_ofList, dropWhile_reverse_dot hext, List.drop_succ_cons, List.drop_zero]
  split
  · rename_i hnil
    exact absurd (List.reverse_eq_nil_iff.mp hnil) hbefore
  · rw [List.reverse_reverse]

/-- A name is its own stem, or it has an ending behind a dot that is not its first character. -/
theorem stem_cases (name : String) :
    stem name = name ∨ ∃ before ext, before ≠ [] ∧ '.' ∉ ext ∧
      name = String.ofList (before ++ '.' :: ext) := by
  cases hdrop : name.toList.reverse.dropWhile (· != '.') with
  | nil =>
    left
    simp [stem, hdrop]
  | cons dot before =>
    by_cases hbefore : before = []
    · left
      simp [stem, hdrop, hbefore]
    · right
      obtain ⟨hsplit, hext⟩ := eq_append_of_dropWhile_bne hdrop
      refine ⟨before.reverse, (name.toList.reverse.takeWhile (· != '.')).reverse,
        mt List.reverse_eq_nil_iff.mp hbefore, mt List.mem_reverse.mp hext, ?_⟩
      have hname := congrArg List.reverse hsplit
      rw [List.reverse_reverse, List.reverse_append, List.reverse_cons, List.append_assoc] at hname
      rw [← String.toList_inj, String.toList_ofList]
      exact hname

/-- The extension makes no difference to the name without it. -/
theorem stem_beforeExtension (name : String) : stem (beforeExtension name) = stem name := by
  rw [beforeExtension]
  split
  · rfl
  · rename_i hstem
    obtain hsame | ⟨before, ext, hbefore, hext, rfl⟩ := stem_cases name
    · exact absurd hsame hstem
    · rw [stem_ofList hbefore hext, String.toList_ofList, dropWhile_reverse_dot hext,
        List.reverse_cons, List.reverse_reverse]
      exact stem_ofList hbefore List.not_mem_nil

theorem mem_of_mem_stem {c : Char} (h : c ∈ (stem name).toList) : c ∈ name.toList := by
  obtain hsame | ⟨before, ext, hbefore, hext, rfl⟩ := stem_cases name
  · rwa [hsame] at h
  · rw [stem_ofList hbefore hext, String.toList_ofList] at h
    rw [String.toList_ofList]
    exact List.mem_append_left _ h

/-- A document is named by what is before the extension, unless there is no document. -/
theorem documentName_eq (h : namesPlace (documentName name) = false) :
    documentName name = stem name ++ ".html" := by
  unfold documentName at h ⊢
  by_cases hname : namesPlace name = true
  · simp only [hname, if_true] at h
    cases h
  · simp only [if_neg hname] at h ⊢
    by_cases hbare : namesPlace (beforeExtension name) = true
    · rw [if_pos hbare, hbare] at h
      cases h
    · rw [if_neg hbare, stem_beforeExtension]

/-- The name of a document is a name again: it has no slash if the source had none. -/
theorem slash_notMem_documentName (h : '/' ∉ name.toList) : '/' ∉ (documentName name).toList := by
  cases hplace : namesPlace (documentName name) with
  | true =>
    simp only [namesPlace, Bool.or_eq_true, decide_eq_true_eq, String.isEmpty_iff] at hplace
    rcases hplace with (hplace | hplace) | hplace <;> rw [hplace] <;> decide
  | false =>
    rw [documentName_eq hplace, String.toList_append, List.mem_append, not_or]
    exact ⟨fun hmem => h (mem_of_mem_stem hmem), by decide⟩

end EmailMarkup.Command
