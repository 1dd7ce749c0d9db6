import EmailMarkup.Command.Run
import EmailMarkup.Proofs.Command.Files
import EmailMarkup.Proofs.Html.Entity
import EmailMarkup.Proofs.Outlook.Merge
import Mathlib.Data.List.Induction

/-!
# The documents of a command

A command that compiles several files into a directory names each document after its file, without
the last two extensions. Documents with different names never meet, and no document takes the place
of a file of markup, so everything that a command reads is as it was before (`Progress.step`). What
is found under the name of a document in the end is the document of the last file that is named like
it (`documents_in_directory`).
-/

set_option autoImplicit false

namespace EmailMarkup.Command

open EmailMarkup.Page

variable {path html : String} {f : Files} {o : Outcome}

/-! ### Destinations -/

/-- What a document is named by: the name of its file without the last two extensions. -/
def bareName? (path : String) : Option String :=
  (lastName? path).map fun name => stem (stem name)

/-- Whether a path is that of a file of markup, by its extension. -/
def NamesMarkup (path : String) : Prop :=
  ∃ name, lastName? path = some name ∧ ".mjml".toList <:+ name.toList

/-- The document for a file has a name. -/
def HasDocumentName (path : String) : Prop :=
  ∃ name, lastName? path = some name ∧ namesPlace (documentName (stem name)) = false

theorem destination_of_lastName? {name : String} (h : lastName? path = some name)
    (directory : String) :
    destination directory path = inDirectory directory (documentName (stem name)) := by
  rw [destination, h]

theorem inDirectory_inj {directory name name' : String} :
    inDirectory directory name = inDirectory directory name' ↔ name = name' := by
  unfold inDirectory
  split <;> exact String.append_right_inj _

/-- Two documents go to the same place exactly if they are named by the same. -/
theorem destination_eq_iff {path' : String} (h : HasDocumentName path)
    (h' : HasDocumentName path') (directory : String) :
    destination directory path = destination directory path' ↔
      bareName? path = bareName? path' := by
  obtain ⟨name, hname, hplace⟩ := h
  obtain ⟨name', hname', hplace'⟩ := h'
  rw [destination_of_lastName? hname, destination_of_lastName? hname', inDirectory_inj,
    documentName_eq hplace, documentName_eq hplace', bareName?, bareName?, hname, hname']
  simp

/-- Documents that go to different places are kept apart. -/
theorem fileKey_destination_inj {directory path' : String}
    (hdirectory : directory.isEmpty = false) (h : HasDocumentName path)
    (h' : HasDocumentName path')
    (hkey : fileKey (destination directory path) = fileKey (destination directory path')) :
    destination directory path = destination directory path' := by
  obtain ⟨name, hname, hplace⟩ := h
  obtain ⟨name', hname', hplace'⟩ := h'
  have hslash := fun {path name : String} (h : lastName? path = some name) =>
    slash_notMem_documentName (mt mem_of_mem_stem (slash_notMem_lastName? h))
  rw [destination_of_lastName? hname, destination_of_lastName? hname'] at hkey ⊢
  rw [fileKey_inDirectory_inj hdirectory (hslash hname) (hslash hname') hplace hplace' hkey]

/-- A document is not kept in the place of a file of markup. -/
theorem fileKey_ne_destination {directory source : String}
    (hdirectory : directory.isEmpty = false) (hsource : NamesMarkup source)
    (h : HasDocumentName path) : fileKey source ≠ fileKey (destination directory path) := by
  intro hkey
  obtain ⟨name, hname, hmarkup⟩ := hsource
  obtain ⟨document, hdocument, hplace⟩ := h
  have hmarkup := hmarkup.trans (suffix_fileKey hname)
  have hhtml : ".html".toList <:+ (fileKey (destination directory path)).toList := by
    have hslash := slash_notMem_documentName
      (mt mem_of_mem_stem (slash_notMem_lastName? hdocument))
    obtain ⟨front, hfront⟩ := exists_ofRoute_concat (route directory)
    rw [destination_of_lastName? hdocument, fileKey, route_inDirectory hdirectory hslash,
      follow_of_name hplace, hfront, documentName_eq hplace, String.toList_append,
      ← List.append_assoc]
    exact List.suffix_append _ _
  -- The two extensions are equally long and differ.
  rw [hkey] at hmarkup
  have hsame := (List.suffix_of_suffix_length_le hmarkup hhtml (by decide)).eq_of_length (by decide)
  exact absurd hsame (by decide)

/-- What is written into a directory has a name. -/
theorem hasDocumentName_of_write {g : Files} {directory text : String}
    (hdirectory : f.isDirectory directory = true) (hsource : NamesMarkup path)
    (hwrite : f.write (destination directory path) text = .ok g) : HasDocumentName path := by
  obtain ⟨name, hname, -⟩ := hsource
  refine ⟨name, hname, Bool.eq_false_iff.mpr fun hplace => ?_⟩
  rw [destination_of_lastName? hname] at hwrite
  exact Files.write_namesPlace hdirectory hplace hwrite

/-! ### One file -/

/-- The document for a file, if it can be read and compiled. -/
def documentOf? (options : Options) (files : Files) (path : String) : Option String :=
  (files.read path).toOption.bind fun markup =>
    (compile .core options markup).toOption.map Compiled.html

/-- How the command tells of a document. -/
def reportLine (directory path : String) : String :=
  "✓ " ++ path ++ " -> " ++ destination directory path ++ "\n"

theorem documentOf?_eq_some_iff {options : Options} :
    documentOf? options f path = some html ↔
      ∃ markup compiled, f.read path = .ok markup ∧ compile .core options markup = .ok compiled ∧
        compiled.html = html := by
  unfold documentOf?
  cases f.read path with
  | error fault => simp [Except.toOption]
  | ok markup =>
    cases hcompile : compile .core options markup with
    | error cause => simp [Except.toOption, hcompile]
    | ok compiled => simp [Except.toOption, hcompile]

/-- A request for documents in a directory that is there. -/
structure IntoDirectory (r : Request) (files : Files) (directory : String) : Prop where
  validate : r.validate = false
  dumpTree : r.dumpTree = false
  output : r.output? = some directory
  isDirectory : files.isDirectory directory = true

variable {r : Request} {options : Options} {files : Files} {directory : String}

/-- Documents do not change which directories there are. -/
theorem IntoDirectory.congr (h : IntoDirectory r files directory)
    (hf : f.directories = files.directories) : IntoDirectory r f directory :=
  { h with isDirectory := Files.isDirectory_congr h.isDirectory hf }

/-- A trouble with an earlier file is not forgotten. -/
theorem exit_of_compileFile (h : (compileFile r options o path).exit = 0) : o.exit = 0 := by
  have hfail : ∀ cause, (o.fail path cause).exit ≠ 0 := by
    intro cause
    unfold Outcome.fail
    split
    · exact Nat.succ_ne_zero 100
    · exact Nat.succ_ne_zero 0
  unfold compileFile at h
  split at h
  · cases h
  · split at h
    · split at h
      · exact h
      · exact absurd h (hfail _)
    · split at h
      · unfold deliver at h
        split at h
        · exact h
        · split at h
          · exact h
          · simp only at h
            split at h
            · exact h
            · cases h
      · exact absurd h (hfail _)

/-- A file that is compiled without trouble is read, compiled and written. -/
theorem exists_of_compileFile (hr : IntoDirectory r o.files directory)
    (hexit : (compileFile r options o path).exit = 0) :
    ∃ html, documentOf? options o.files path = some html ∧
      o.files.write (destination directory path) html =
        .ok (compileFile r options o path).files ∧
      (compileFile r options o path).out = o.out ++ reportLine directory path ∧
      (compileFile r options o path).broken = o.broken := by
  have htarget : target r o.files directory path = destination directory path := by
    rw [target, hr.isDirectory, Bool.or_true, if_pos rfl]
  unfold compileFile at hexit ⊢
  cases hread : o.files.read path with
  | error fault =>
    rw [hread] at hexit
    cases hexit
  | ok markup =>
    rw [hread] at hexit
    simp only [hr.dumpTree, Bool.false_eq_true, if_false] at hexit ⊢
    cases hcompile : compile .core options markup with
    | error cause =>
      rw [hcompile] at hexit
      simp only [Outcome.fail] at hexit
      split at hexit <;> cases hexit
    | ok compiled =>
      rw [hcompile] at hexit
      simp only [deliver, hr.validate, hr.output, Bool.false_eq_true, if_false, Outcome.complain,
        htarget, reportLine] at hexit ⊢
      have hdocument : documentOf? options o.files path = some compiled.html :=
        documentOf?_eq_some_iff.mpr ⟨markup, compiled, hread, hcompile, rfl⟩
      cases hwrite : o.files.write (destination directory path) compiled.html with
      | error fault =>
        simp only [hwrite] at hexit
        cases hexit
      | ok written => exact ⟨compiled.html, hdocument, hwrite, rfl, rfl⟩

/-! ### All files -/

/-- In the place of every document is the last one that went there. -/
def HasLatest (options : Options) (files : Files) (directory : String) (done : List String)
    (f : Files) : Prop :=
  ∀ path ∈ done, ∃ last html,
    (done.filter fun p => destination directory p = destination directory path).getLast? =
      some last ∧
    documentOf? options files last = some html ∧ f.read (destination directory path) = .ok html

/-- One more document takes its own place and no other. -/
theorem HasLatest.write {done : List String} {g : Files}
    (h : HasLatest options files directory done f) (hdirectory : directory.isEmpty = false)
    (hnamed : ∀ p ∈ done ++ [path], HasDocumentName p)
    (hdocument : documentOf? options files path = some html)
    (hwrite : f.write (destination directory path) html = .ok g) :
    HasLatest options files directory (done ++ [path]) g := by
  intro p hp
  rw [List.filter_append]
  by_cases hsame : destination directory path = destination directory p
  · refine ⟨path, html, ?_, hdocument, ?_⟩
    · rw [List.filter_cons_of_pos (by simpa using hsame)]
      exact List.getLast?_concat
    · rw [← hsame]
      exact Files.read_write_self hwrite
  · -- The file is one of those before, since its place is another one.
    have hdone : p ∈ done := by
      rcases List.mem_append.mp hp with hp | hp
      · exact hp
      · exact absurd (congrArg _ (List.mem_singleton.mp hp).symm) hsame
    obtain ⟨last, html', hlast, hdocument', hread⟩ := h p hdone
    refine ⟨last, html', ?_, hdocument', ?_⟩
    · rw [List.filter_cons_of_neg (by simpa using hsame), List.filter_nil, List.append_nil]
      exact hlast
    · refine (Files.read_write_of_ne hwrite (fun hkey => ?_) html').mpr hread
      have hpath := hnamed path (List.mem_append_right _ List.mem_cons_self)
      exact hsame (fileKey_destination_inj hdirectory (hnamed p hp) hpath hkey).symm

/-- Where a command stands after some files, none of which gave trouble. -/
structure Progress (options : Options) (files : Files) (directory : String) (done : List String)
    (o : Outcome) : Prop where
  running : o.broken = false
  directories : o.files.directories = files.directories
  out : o.out = String.join (done.map (reportLine directory))
  /-- Files of markup are as they were. -/
  sources : ∀ path, NamesMarkup path → ∀ text,
    o.files.read path = .ok text ↔ files.read path = .ok text
  named : ∀ path ∈ done, HasDocumentName path
  compiled : ∀ path ∈ done, (documentOf? options files path).isSome = true
  latest : HasLatest options files directory done o.files

theorem Progress.start (options : Options) (files : Files) (directory : String) :
    Progress options files directory [] { files } where
  running := rfl
  directories := rfl
  out := rfl
  sources _ _ _ := Iff.rfl
  named := List.forall_mem_nil _
  compiled := List.forall_mem_nil _
  latest := List.forall_mem_nil _

/-- One more file. -/
theorem Progress.step {done : List String} (h : Progress options files directory done o)
    (hr : IntoDirectory r files directory) (hsource : NamesMarkup path)
    (hexit : (compileFile r options o path).exit = 0) :
    Progress options files directory (done ++ [path]) (compileFile r options o path) := by
  have hr' := hr.congr h.directories
  have hempty := (Files.of_isDirectory hr.isDirectory).1
  obtain ⟨html, hdocument, hwrite, hout, hbroken⟩ := exists_of_compileFile hr' hexit
  have hpath : HasDocumentName path := hasDocumentName_of_write hr'.isDirectory hsource hwrite
  have hnamed : ∀ p ∈ done ++ [path], HasDocumentName p :=
    List.forall_mem_append.mpr ⟨h.named, List.forall_mem_singleton.mpr hpath⟩
  -- The file is read as it was before the command.
  have hown : documentOf? options files path = some html := by
    obtain ⟨markup, compiled, hread, hcompile, hhtml⟩ := documentOf?_eq_some_iff.mp hdocument
    exact documentOf?_eq_some_iff.mpr
      ⟨markup, compiled, (h.sources path hsource markup).mp hread, hcompile, hhtml⟩
  refine ⟨hbroken.trans h.running, ?_, ?_, ?_, hnamed, ?_, h.latest.write hempty hnamed hown hwrite⟩
  · rw [← h.directories, (Files.exists_of_write hwrite).2.2]
  · rw [hout, h.out, List.map_append]
    simp
  · intro source hmarkup text
    rw [← h.sources source hmarkup text]
    exact Files.read_write_of_ne hwrite (fileKey_ne_destination hempty hmarkup hpath) text
  · refine List.forall_mem_append.mpr ⟨h.compiled, List.forall_mem_singleton.mpr ?_⟩
    rw [hown]
    rfl

/-- What a command does with a file, unless it has ended. -/
def visit (r : Request) (options : Options) (o : Outcome) (path : String) : Outcome :=
  if o.broken then o else compileFile r options o path

theorem run_of_options (h : optionsOf r files = .ok options) :
    run r files = r.files.foldl (visit r options) { files } := by
  rw [run, h]
  rfl

/-- A command that ends without trouble had none with any of its files. -/
theorem progress_foldl (hr : IntoDirectory r files directory) {paths : List String}
    (hsources : ∀ path ∈ paths, NamesMarkup path)
    (hexit : (paths.foldl (visit r options) { files }).exit = 0) :
    Progress options files directory paths (paths.foldl (visit r options) { files }) := by
  induction paths using List.reverseRecOn with
  | nil => exact .start options files directory
  | append_singleton done path ih =>
    obtain ⟨hdone, hsource⟩ := List.forall_mem_append.mp hsources
    rw [List.foldl_append, List.foldl_cons, List.foldl_nil] at hexit ⊢
    generalize done.foldl (visit r options) { files } = o at ih hexit ⊢
    have hbroken : o.broken = false := by
      rw [Bool.eq_false_iff]
      intro hbroken
      -- A command that has ended early has an exit code.
      rw [visit, if_pos hbroken] at hexit
      cases hbroken.symm.trans (ih hdone hexit).running
    rw [visit, if_neg (Bool.eq_false_iff.mp hbroken)] at hexit ⊢
    have hprogress := ih hdone (exit_of_compileFile hexit)
    exact hprogress.step hr (List.forall_mem_singleton.mp hsource) hexit

/-- The last of some files whose document is named by the same as that of a file. -/
def lastNamedLike? (paths : List String) (path : String) : Option String :=
  (paths.filter fun p => bareName? p = bareName? path).getLast?

theorem lastNamedLike?_of_nodup {paths : List String} {last : String}
    (hnodup : (paths.map bareName?).Nodup) (hpath : path ∈ paths)
    (hlast : lastNamedLike? paths path = some last) : last = path := by
  obtain ⟨hmem, hname⟩ := List.mem_filter.mp (List.mem_of_getLast? hlast)
  exact List.inj_on_of_nodup_map hnodup hmem hpath (of_decide_eq_true hname)

/-- A command compiles files of markup into a directory and ends without trouble. Then every file
has a document, the command has told of all of them in order, and their places are all different
exactly if the names of the files are different without their last two extensions. What is in the
place that was told for a file is the document of the last file that has the same name in this
sense, which is its own document if the names are different. -/
theorem documents_in_directory (r : Request) (files : Files) {directory : String}
    (hr : IntoDirectory r files directory) (hsources : ∀ path ∈ r.files, NamesMarkup path)
    (hexit : (run r files).exit = 0) :
    ∃ options, optionsOf r files = .ok options ∧
      (run r files).out = String.join (r.files.map fun path =>
        "✓ " ++ path ++ " -> " ++ destination directory path ++ "\n") ∧
      ((r.files.map (destination directory)).Nodup ↔ (r.files.map bareName?).Nodup) ∧
      ∀ path ∈ r.files, ∃ own last html, documentOf? options files path = some own ∧
        lastNamedLike? r.files path = some last ∧ documentOf? options files last = some html ∧
        (run r files).files.read (destination directory path) = .ok html ∧
        ((r.files.map bareName?).Nodup → html = own) := by
  cases hoptions : optionsOf r files with
  | error trouble =>
    rw [run, hoptions] at hexit
    cases hexit
  | ok options =>
    rw [run_of_options hoptions] at hexit ⊢
    have hprogress := progress_foldl hr hsources hexit
    have hsame : ∀ {p q}, p ∈ r.files → q ∈ r.files →
        (destination directory p = destination directory q ↔ bareName? p = bareName? q) :=
      fun hp hq => destination_eq_iff (hprogress.named _ hp) (hprogress.named _ hq) directory
    refine ⟨options, rfl, hprogress.out, ?_, ?_⟩
    · rw [List.Nodup, List.Nodup, List.pairwise_map, List.pairwise_map]
      exact List.Pairwise.iff_of_mem fun hp hq => not_congr (hsame hp hq)
    · intro path hpath
      obtain ⟨own, hown⟩ := Option.isSome_iff_exists.mp (hprogress.compiled path hpath)
      obtain ⟨last, html, hlast, hhtml, hread⟩ := hprogress.latest path hpath
      have hlike : lastNamedLike? r.files path = some last := by
        rw [← hlast]
        refine congrArg List.getLast? (List.filter_congr fun p hp => ?_)
        exact decide_eq_decide.mpr (hsame hp hpath).symm
      refine ⟨own, last, html, hown, hlike, hhtml, hread, fun hnodup => ?_⟩
      rw [lastNamedLike?_of_nodup hnodup hpath hlike, hown] at hhtml
      exact (Option.some.inj hhtml).symm

/-! ### Two files -/

/-- A request for two files in a directory. -/
def pairRequest (second : String) : Request where
  files := ["a.mjml", second]
  output? := some "out"

/-- The two files, in different languages. -/
def pairFiles (second : String) : Files :=
  .ofPaths [("a.mjml", "<mjml lang=\"en\"></mjml>"), (second, "<mjml lang=\"fr\"></mjml>")]
    ["out"]

theorem pairRequest_intoDirectory {second : String}
    (h : (pairFiles second).isDirectory "out" = true) :
    IntoDirectory (pairRequest second) (pairFiles second) "out" :=
  ⟨rfl, rfl, rfl, h⟩

theorem pairRequest_namesMarkup {second : String} (h : NamesMarkup second) :
    ∀ path ∈ (pairRequest second).files, NamesMarkup path :=
  List.forall_mem_cons.mpr
    ⟨⟨"a.mjml", by decide +kernel, by decide⟩, List.forall_mem_singleton.mpr h⟩

/-- Two files with different names each have their own document. -/
theorem documents_apart :
    IntoDirectory (pairRequest "b.c.mjml") (pairFiles "b.c.mjml") "out" ∧
    (∀ path ∈ (pairRequest "b.c.mjml").files, NamesMarkup path) ∧
    (run (pairRequest "b.c.mjml") (pairFiles "b.c.mjml")).exit = 0 ∧
    ∃ options, optionsOf (pairRequest "b.c.mjml") (pairFiles "b.c.mjml") = .ok options ∧
      ∀ path ∈ ["a.mjml", "b.c.mjml"], ∃ own,
        documentOf? options (pairFiles "b.c.mjml") path = some own ∧
        (run (pairRequest "b.c.mjml") (pairFiles "b.c.mjml")).files.read (destination "out" path) =
          .ok own := by
  have hr := @pairRequest_intoDirectory "b.c.mjml" (by decide +kernel)
  have hsources := @pairRequest_namesMarkup "b.c.mjml" ⟨"b.c.mjml", by decide +kernel, by decide⟩
  have hexit : (run (pairRequest "b.c.mjml") (pairFiles "b.c.mjml")).exit = 0 := by decide +kernel
  obtain ⟨options, hoptions, -, -, hdocuments⟩ :=
    documents_in_directory (pairRequest "b.c.mjml") (pairFiles "b.c.mjml") hr hsources hexit
  refine ⟨hr, hsources, hexit, options, hoptions, fun path hpath => ?_⟩
  obtain ⟨own, last, html, hown, -, -, hread, hsame⟩ := hdocuments path hpath
  rw [hsame (by decide +kernel)] at hread
  exact ⟨own, hown, hread⟩

/-- How a document begins: with its language. -/
def documentStart (lang : String) : String :=
  "<!doctype html><html lang=\"" ++ Html.escapeAttribute lang

theorem documentStart_finish (o : Options) {head : HeadState} (notes : Body.Notes)
    (content : String) (hinline : head.inlineStyles.isEmpty = true) :
    (documentStart head.lang).toList <+: (finish o head notes content).html.toList := by
  have hapart : Text.Apart Outlook.closing.toList (documentStart head.lang).toList := by
    have hopening : Text.Apart Outlook.closing.toList "<!doctype html><html lang=\"".toList := by
      decide
    have hlang := Outlook.apart_closing
      (Html.notMem_escapeAttribute (x := '<') (by decide) head.lang)
    unfold documentStart
    simpa only [String.toList_append] using hopening.append hlang
  have hstart : ∀ attached : String, (documentStart head.lang).toList <+:
      (Outlook.merge (document o head notes attached)).toList := by
    intro attached
    obtain ⟨rest, hrest⟩ : ∃ rest, document o head notes attached =
        documentStart head.lang ++ rest := by
      unfold document documentStart
      simp only [String.append_assoc]
      exact ⟨_, rfl⟩
    rw [Outlook.merge, String.toList_ofList, hrest, String.toList_append,
      Outlook.mergeChars_of_apart hapart]
    exact List.prefix_append _ _
  unfold finish
  simp only [hinline, if_true]
  exact hstart _

/-- What is compiled from markup without a head begins with the language of the markup. -/
theorem documentStart_compile {o : Options} {markup lang : String} {root : Markup.Node}
    {compiled : Compiled} (hread : Markup.Node.read .core o.keepComments markup = .ok root)
    (hhead : root.child? "mj-head" = none) (hlang : root.attribute? "lang" = some lang)
    (hinline : (HeadState.initial o).inlineStyles.isEmpty = true)
    (h : compile .core o markup = .ok compiled) :
    (documentStart lang).toList <+: compiled.html.toList := by
  obtain ⟨read, hread', h⟩ := exists_of_bind h
  cases hread.symm.trans hread'
  unfold compileNode at h
  split at h
  · cases h
  · obtain ⟨pass, hpass, h⟩ := exists_of_bind h
    obtain ⟨drawing, -, h⟩ := exists_of_bind h
    rw [takeHead, hhead] at hpass
    cases hpass
    cases h
    have hlang' : (initialHead o root).lang = lang := by
      rw [initialHead, hlang]
      rfl
    have hstart := fun notes content =>
      @documentStart_finish o (initialHead o root) notes content hinline
    rw [hlang'] at hstart
    exact hstart _ _

/-- The document of a file without a head begins with its language. -/
theorem documentStart_documentOf? {lang : String}
    (hroot : ((f.read path).toOption.bind fun markup =>
      (Markup.Node.read .core ({} : Options).keepComments markup).toOption).any (fun root =>
        (root.child? "mj-head").isNone && root.attribute? "lang" == some lang) = true)
    (h : documentOf? {} f path = some html) : (documentStart lang).toList <+: html.toList := by
  obtain ⟨markup, compiled, hread, hcompile, rfl⟩ := documentOf?_eq_some_iff.mp h
  rw [hread] at hroot
  cases hnode : Markup.Node.read .core ({} : Options).keepComments markup with
  | error failure =>
    simp [Except.toOption, hnode] at hroot
  | ok root =>
    simp only [Except.toOption, hnode, Option.bind_some, Option.any_some, Bool.and_eq_true,
      Option.isNone_iff_eq_none, beq_iff_eq] at hroot
    exact documentStart_compile hnode hroot.1 hroot.2 rfl hcompile

/-- Two files whose names differ in the second extension have one place for their documents. The
command ends without trouble, and the document of the first file is lost. -/
theorem documents_meet :
    IntoDirectory (pairRequest "a.b.mjml") (pairFiles "a.b.mjml") "out" ∧
    (run (pairRequest "a.b.mjml") (pairFiles "a.b.mjml")).exit = 0 ∧
    destination "out" "a.mjml" = destination "out" "a.b.mjml" ∧
    ∃ own, documentOf? {} (pairFiles "a.b.mjml") "a.mjml" = some own ∧
      (run (pairRequest "a.b.mjml") (pairFiles "a.b.mjml")).files.read
        (destination "out" "a.mjml") ≠ .ok own := by
  have hr := @pairRequest_intoDirectory "a.b.mjml" (by decide +kernel)
  have hsources := @pairRequest_namesMarkup "a.b.mjml" ⟨"a.b.mjml", by decide +kernel, by decide⟩
  have hexit : (run (pairRequest "a.b.mjml") (pairFiles "a.b.mjml")).exit = 0 := by decide +kernel
  have hmeet : destination "out" "a.mjml" = destination "out" "a.b.mjml" := by decide +kernel
  have hrun : run (pairRequest "a.b.mjml") (pairFiles "a.b.mjml") =
      (pairRequest "a.b.mjml").files.foldl (visit (pairRequest "a.b.mjml") {})
        { files := pairFiles "a.b.mjml" } := run_of_options rfl
  have hprogress := progress_foldl hr hsources (hrun ▸ hexit)
  have hfirst : "a.mjml" ∈ (pairRequest "a.b.mjml").files := List.mem_cons_self
  obtain ⟨own, hown⟩ := Option.isSome_iff_exists.mp (hprogress.compiled _ hfirst)
  obtain ⟨last, html, hlast, hhtml, hread⟩ := hprogress.latest _ hfirst
  refine ⟨hr, hexit, hmeet, own, hown, ?_⟩
  rw [hrun, hread]
  intro hsame
  cases hsame
  -- What is there is in the language of the second file.
  have hsecond : last = "a.b.mjml" := Option.some.inj (hlast.symm.trans (by decide +kernel))
  rw [hsecond] at hhtml
  have hen : (documentStart "en").toList <+: own.toList :=
    documentStart_documentOf? (by decide +kernel) hown
  have hfr : (documentStart "fr").toList <+: own.toList :=
    documentStart_documentOf? (by decide +kernel) hhtml
  have hstarts := (List.prefix_of_prefix_length_le hen hfr (by decide +kernel)).eq_of_length
    (by decide +kernel)
  exact absurd hstarts (by decide +kernel)

end EmailMarkup.Command
