import EmailMarkup.Proofs.Fallible
import EmailMarkup.Proofs.Markup.Capture
import EmailMarkup.Proofs.OrderedMap

/-!
# What an item says of the text

Every reader of a part of the markup leaves an end of the text it was given. From this, an item can
be held against the text it was read from (`Item.Spells`): a tag stands there with its whole name, a
comment stands there from its first to its last character, and what is kept of either is tidy.
Positions are told from ends of the text, so a failure can be traced to the tag that it is about.
-/

set_option autoImplicit false

namespace EmailMarkup.Markup

open EmailMarkup.Text EmailMarkup.Component

variable {cs rest : List Char}

/-! ### What is left -/

theorem splitAtMark?_suffix {mark before : List Char}
    (h : splitAtMark? mark cs = some (before, rest)) : rest <:+ cs := by
  rw [(splitAtMark?_eq_some h).1, ← List.append_assoc]
  exact List.suffix_append _ _

theorem afterName_suffix (cs : List Char) : afterName cs <:+ cs :=
  List.dropWhile_suffix _

theorem readValue?_suffix {value : List Char} (h : readValue? cs = some (value, rest)) :
    rest <:+ cs := by
  unfold readValue? at h
  split at h
  · exact (splitAtMark?_suffix h).trans (List.suffix_cons _ _)
  · exact (splitAtMark?_suffix h).trans (List.suffix_cons _ _)
  · cases h
    exact List.dropWhile_suffix _

theorem readAssigned_suffix {name value : String} (h : readAssigned name cs = .ok (value, rest)) :
    rest <:+ cs := by
  unfold readAssigned at h
  split at h
  · split at h
    · rename_i hvalue
      cases h
      exact (readValue?_suffix hvalue).trans ((trimLeft_suffix _).trans (List.suffix_cons _ _))
    · cases h
  · cases h
    exact List.suffix_rfl

/-- What follows an attribute with a name is shorter than the text. -/
theorem of_readAssigned {more next : List Char} {c : Char} {name value : String}
    (htail : trimLeft cs = c :: more) (hname : ¬ (nameOf (c :: more)).isEmpty = true)
    (hvalue : readAssigned name (trimLeft (afterName (c :: more))) = .ok (value, next)) :
    next <:+ cs ∧ next.length < cs.length := by
  have htrim : c :: more <:+ cs := htail ▸ trimLeft_suffix cs
  have hnext := readAssigned_suffix hvalue
  have hlength := length_trimLeft_afterName_lt (Bool.eq_false_iff.mpr hname)
  constructor
  · exact hnext.trans ((trimLeft_suffix _).trans ((afterName_suffix _).trans htrim))
  · exact Nat.lt_of_le_of_lt hnext.length_le (Nat.lt_of_lt_of_le hlength htrim.length_le)

theorem capture_suffix {name : List Char} {depth : Nat} {captured : List Char × List Char}
    (h : capture name depth cs = .ok captured) : captured.2 <:+ cs := by
  fun_induction capture name depth cs generalizing captured with
  | case1 | case2 => contradiction
  | case3 c rest _ inside next hsplit _ =>
    cases h
    exact (splitAtMark?_suffix hsplit).trans (List.suffix_cons _ _)
  | case4 c rest _ inside next hsplit _ depth ih =>
    obtain ⟨inner, hinner, rfl⟩ := exists_of_map h
    exact (ih hinner).trans ((splitAtMark?_suffix hsplit).trans (List.suffix_cons _ _))
  | case5 => contradiction
  | case6 depth c rest _ _ inside next hsplit _ ih =>
    obtain ⟨inner, hinner, rfl⟩ := exists_of_map h
    exact (ih hinner).trans ((splitAtMark?_suffix hsplit).trans (List.suffix_cons _ _))
  | case7 depth c rest _ _ ih =>
    obtain ⟨inner, hinner, rfl⟩ := exists_of_map h
    exact (ih hinner).trans (List.suffix_cons _ _)

/-! ### Attributes -/

/-- All keys are names. -/
def NamesOnly (attributes : Attributes) : Prop :=
  ∀ name ∈ attributes.keys, IsName name.toList

theorem namesOnly_empty : NamesOnly ∅ :=
  fun _ h => nomatch h

theorem NamesOnly.insert {attributes : Attributes} (h : NamesOnly attributes) {name : String}
    (hname : IsName name.toList) (value : String) : NamesOnly (attributes.insert name value) := by
  intro other hother
  rw [OrderedMap.keys_insert] at hother
  split at hother
  · exact h other hother
  · rcases List.mem_append.mp hother with hother | hother
    · exact h other hother
    · rw [List.mem_singleton.mp hother]
      exact hname

/-- What is read as a name is one, if it is not empty. -/
theorem isName_nameOf (h : ¬ (nameOf cs).isEmpty = true) : IsName (nameOf cs) :=
  ⟨by simpa using h, fun _ hc => List.mem_takeWhile_imp hc⟩

section
variable (registry : Registry) (locate : List Char → Position) (start : Position)

/-- Reading attributes leaves an end of the text, and adds none whose key is not a name. -/
theorem of_readAttributes {tag : String} {attributes : Attributes}
    {read : (Attributes × Bool) × List Char}
    (h : (readAttributes locate start tag attributes cs).map Front.pair = .ok read) :
    read.2 <:+ cs ∧ (NamesOnly attributes → NamesOnly read.1.1) := by
  induction hlength : cs.length using Nat.strong_induction_on generalizing cs attributes with
  | _ length ih =>
  subst hlength
  rw [pair_readAttributes] at h
  have htrim := trimLeft_suffix cs
  split at h
  · cases h
  · rename_i htail
    cases h
    rw [htail] at htrim
    exact ⟨(List.suffix_cons _ _).trans ((List.suffix_cons _ _).trans htrim), id⟩
  · rename_i htail
    cases h
    rw [htail] at htrim
    exact ⟨(List.suffix_cons _ _).trans htrim, id⟩
  · rename_i c more _ _ htail
    split at h
    · cases h
    · rename_i hname
      simp only at h
      split at h
      · cases h
      · rename_i value next hvalue
        obtain ⟨hnext, hshorter⟩ := of_readAssigned htail hname hvalue
        obtain ⟨hrest, hnames⟩ := ih next.length hshorter h rfl
        refine ⟨hrest.trans hnext, fun hattributes => hnames (hattributes.insert ?_ value)⟩
        rw [String.toList_ofList]
        exact isName_nameOf hname

/-! ### Items -/

/-- A text begins with a bracket and a name, which goes no further. -/
def BeginsTag (name cs : List Char) : Prop :=
  ∃ rest, cs = '<' :: (name ++ rest) ∧ ∀ c ∈ rest.head?, isNameChar c = false

/-- A text begins with a comment, which goes up to the first mark that ends it. -/
def BeginsComment (source cs : List Char) : Prop :=
  ∃ body, source = "<!--".toList ++ (body ++ "-->".toList) ∧ source <+: cs ∧
    ¬ "-->".toList <:+: body ++ "--".toList

/-- What is known of an element from the text of its tag. -/
structure Tagged (tag : String) (attributes : Attributes) (cs : List Char) : Prop where
  name : IsName tag.toList
  begins : BeginsTag tag.toList cs
  known : registry.has tag = true
  names : NamesOnly attributes

/-- What an item says of the text that begins with it. -/
def Item.Spells (cs : List Char) : Item → Prop
  | .opening tag attributes =>
    Tagged registry tag attributes cs ∧ ∀ spec ∈ registry.get? tag, spec.captures = false
  | .whole tag attributes content =>
    Tagged registry tag attributes cs ∧ Unpadded content.toList
  | .comment source => BeginsComment source.toList cs
  | .text _ => True
  | .closing _ => True

/-- What is read behind the attributes of a tag is the item of that tag. -/
theorem of_readElement {name : List Char} {attributes : Attributes} {single : Bool}
    {read : Item × List Char}
    (h : readElement registry locate start name attributes single rest = .ok read)
    (hname : IsName name) (hbegins : BeginsTag name cs) (hnames : NamesOnly attributes) :
    read.2 <:+ rest ∧ read.1.Spells registry cs := by
  unfold readElement at h
  simp only at h
  split at h
  · cases h
  · rename_i spec hspec
    have htagged : Tagged registry (String.ofList name) attributes cs :=
      { name := by rw [String.toList_ofList]; exact hname
        begins := by rw [String.toList_ofList]; exact hbegins
        known := by rw [Registry.has, hspec]; rfl
        names := hnames }
    split at h
    · cases h
      exact ⟨List.suffix_rfl, htagged, by decide⟩
    · split at h
      · split at h
        · rename_i captured hcapture
          cases h
          refine ⟨capture_suffix hcapture, htagged, ?_⟩
          rw [String.toList_ofList]
          exact unpadded_trimChars _
        · cases h
        · cases h
        · cases h
      · rename_i hcaptures
        cases h
        refine ⟨List.suffix_rfl, htagged, fun other hother => ?_⟩
        rw [hspec] at hother
        cases hother
        simpa using hcaptures

theorem of_readOpening {read : Item × List Char}
    (h : (readOpening registry locate start cs).map Front.pair = .ok read) :
    read.2 <:+ cs ∧ read.1.Spells registry ('<' :: cs) := by
  rw [pair_readOpening] at h
  split at h
  · cases h
  · rename_i hname
    obtain ⟨⟨⟨attributes, single⟩, rest⟩, hattributes, hread⟩ := exists_of_bind h
    obtain ⟨hrest, hnames⟩ := of_readAttributes locate start hattributes
    have hbegins : BeginsTag (nameOf cs) ('<' :: cs) :=
      ⟨afterName cs, by rw [nameOf_append_afterName], head?_afterName cs⟩
    obtain ⟨hread, hspells⟩ := of_readElement registry locate start hread (isName_nameOf hname)
      hbegins (hnames namesOnly_empty)
    exact ⟨hread.trans (hrest.trans (afterName_suffix cs)), hspells⟩

/-- The first mark that ends a comment does not begin in its body. -/
theorem not_infix_of_first {body : List Char} (hfirst : ∀ pre post, body = pre ++ post → post ≠ [] →
      ¬ "-->".toList <+: post ++ ("-->".toList ++ rest)) :
    ¬ "-->".toList <:+: body ++ "--".toList := by
  rintro ⟨pre, post, heq⟩
  have hlength : pre.length < body.length := by
    have := congrArg List.length heq
    simp at this
    omega
  obtain ⟨tail, rfl⟩ : pre <+: body := by
    refine List.prefix_of_prefix_length_le ?_ (List.prefix_append body "--".toList)
      (Nat.le_of_lt hlength)
    rw [← heq, List.append_assoc]
    exact List.prefix_append _ _
  rw [List.append_assoc, List.append_assoc, List.append_cancel_left_eq] at heq
  refine hfirst pre tail rfl ?_ ?_
  · rintro rfl
    simp at hlength
  · refine (List.prefix_append _ post).trans ?_
    rw [heq, List.prefix_append_right_inj]
    exact ⟨'>' :: rest, rfl⟩

theorem of_readComment {read : Item × List Char}
    (h : (readComment start cs).map Front.pair = .ok read) :
    read.2 <:+ cs ∧ read.1.Spells registry ('<' :: '!' :: '-' :: '-' :: cs) := by
  rw [pair_readComment] at h
  split at h
  · rename_i body rest hsplit
    cases h
    obtain ⟨hcs, hfirst⟩ := splitAtMark?_eq_some hsplit
    have hsource : ("<!--" ++ String.ofList body ++ "-->").toList =
        "<!--".toList ++ (body ++ "-->".toList) := by
      simp
    refine ⟨splitAtMark?_suffix hsplit, body, hsource, ?_, not_infix_of_first hfirst⟩
    rw [hsource, hcs]
    exact ⟨rest, by simp⟩
  · cases h

/-- What begins with a bracket leaves an end of the text and spells its item. -/
theorem of_readMarked {read : Option Item × List Char}
    (h : (readMarked registry locate start cs).map Front.pair = .ok read) :
    read.2 <:+ cs ∧ ∀ item ∈ read.1, item.Spells registry ('<' :: cs) := by
  have hdeclaration {mark cs} (h : (skipDeclaration start mark cs).map Front.pair = .ok read) :
      read.2 <:+ cs ∧ ∀ item ∈ read.1, item.Spells registry ('<' :: cs) := by
    rw [pair_skipDeclaration] at h
    split at h
    · rename_i hsplit
      cases h
      exact ⟨splitAtMark?_suffix hsplit, fun _ hitem => nomatch hitem⟩
    · cases h
  rw [pair_readMarked] at h
  split at h
  · obtain ⟨inner, hinner, rfl⟩ := exists_of_map h
    obtain ⟨hrest, hspells⟩ := of_readComment registry start hinner
    refine ⟨hrest.trans ?_, fun item hitem => by cases hitem; exact hspells⟩
    exact (List.suffix_cons _ _).trans ((List.suffix_cons _ _).trans (List.suffix_cons _ _))
  · exact hdeclaration h
  · exact hdeclaration h
  · rename_i rest
    obtain ⟨inner, hinner, rfl⟩ := exists_of_map h
    rw [pair_readClosing] at hinner
    split at hinner
    · rename_i htail
      cases hinner
      refine ⟨?_, fun item hitem => by cases hitem; trivial⟩
      have htrim := (trimLeft_suffix (afterName rest)).trans (afterName_suffix rest)
      rw [htail] at htrim
      exact (List.suffix_cons _ _).trans (htrim.trans (List.suffix_cons _ _))
    · cases hinner
  · obtain ⟨inner, hinner, rfl⟩ := exists_of_map h
    obtain ⟨hrest, hspells⟩ := of_readOpening registry locate start hinner
    exact ⟨hrest, fun item hitem => by cases hitem; exact hspells⟩

end

end EmailMarkup.Markup
