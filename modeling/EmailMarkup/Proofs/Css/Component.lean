import EmailMarkup.Css.Component
import EmailMarkup.Proofs.Css.Local

/-!
# Components and their tokens

Grouping tokens into components loses none of them: the tokens of the components, block by block,
are the tokens that were grouped (`tokensOf_group`), and so the sources of the components of a text
make up the text (`sourceOf_components`).

A semicolon that is a component of its own stands outside all blocks, and what follows it can be
replaced (`components_replace`).
-/

set_option autoImplicit false

namespace EmailMarkup.Css

open EmailMarkup.Text

mutual

/-- The tokens of a component. -/
def Component.tokens : Component → List Token
  | .token t => [t]
  | .block opener _ content closer => opener :: (tokensOf content ++ closer.toList)

/-- The tokens of components side by side. -/
def tokensOf : List Component → List Token
  | [] => []
  | c :: rest => c.tokens ++ tokensOf rest

end

theorem tokensOf_append (cs ds : List Component) :
    tokensOf (cs ++ ds) = tokensOf cs ++ tokensOf ds := by
  induction cs with
  | nil => rfl
  | cons c cs ih => rw [List.cons_append, tokensOf, tokensOf, ih, List.append_assoc]

theorem sourceOf_append (cs ds : List Component) :
    sourceOf (cs ++ ds) = sourceOf cs ++ sourceOf ds := by
  induction cs with
  | nil => rfl
  | cons c cs ih => rw [List.cons_append, sourceOf, sourceOf, ih, List.append_assoc]

mutual

theorem Component.source_eq (c : Component) : c.source = c.tokens.flatMap Token.source := by
  cases c with
  | token t => simp [Component.source, Component.tokens]
  | block opener bracket content closer =>
    rw [Component.source, Component.tokens, sourceOf_eq content, List.flatMap_cons,
      List.flatMap_append, List.append_assoc]
    cases closer <;> simp

theorem sourceOf_eq (cs : List Component) : sourceOf cs = (tokensOf cs).flatMap Token.source := by
  cases cs with
  | nil => rfl
  | cons c cs => rw [sourceOf, tokensOf, List.flatMap_append, c.source_eq, sourceOf_eq cs]

end

theorem Component.tokens_ne_nil (c : Component) : c.tokens ≠ [] := by
  cases c <;> simp [Component.tokens]

/-! ### Grouping -/

/-- The tokens of open blocks, from the outermost on. -/
def stackTokens : List OpenBlock → List Token
  | [] => []
  | b :: rest => stackTokens rest ++ b.opener :: tokensOf b.content.reverse

/-- The tokens that a grouping has taken in. -/
def Grouping.tokens (g : Grouping) : List Token :=
  tokensOf g.top.reverse ++ stackTokens g.stack

/-- The components, once no more tokens follow. -/
def Grouping.result (g : Grouping) : List Component :=
  (endBlocks none g.top g.stack).reverse

theorem Grouping.tokens_add (g : Grouping) (c : Component) :
    (g.add c).tokens = g.tokens ++ c.tokens := by
  unfold Grouping.add Grouping.tokens
  cases hstack : g.stack with
  | nil | cons b rest => simp [stackTokens, tokensOf_append, tokensOf]

/-- What a token does to a grouping: it opens a block, closes the innermost one, or is added. Which
of these is settled by the token and the innermost open block. -/
theorem Grouping.step_cases (stack : List OpenBlock) (t : Token) :
    (∃ bracket, t.kind.opens? = some bracket ∧ ∀ g : Grouping, g.stack = stack → g.step t =
      { g with stack := { opener := t, bracket, content := [] } :: g.stack }) ∨
    (∃ b rest, stack = b :: rest ∧ ∀ g : Grouping, g.stack = stack → g.step t =
      Grouping.add { g with stack := rest } (b.finish (some t))) ∨
    (∀ g : Grouping, g.stack = stack → g.step t = g.add (.token t)) := by
  cases hopens : t.kind.opens? with
  | some bracket =>
    refine .inl ⟨bracket, rfl, fun g _ => ?_⟩
    rw [Grouping.step, hopens]
  | none =>
    by_cases hcloses : ∃ b ∈ stack.head?, t.kind = .closing b.bracket
    · obtain ⟨b, hb, hkind⟩ := hcloses
      obtain ⟨rest, rfl⟩ := List.head?_eq_some_iff.mp hb
      refine .inr (.inl ⟨b, rest, rfl, fun g hstack => ?_⟩)
      simp only [Grouping.step, hstack, hkind, Kind.opens?, if_true]
    · refine .inr (.inr fun g hstack => ?_)
      simp only [Grouping.step, hopens]
      split
      · rename_i bracket b rest hkind hg
        rw [if_neg]
        intro hbracket
        refine hcloses ⟨b, ?_, by rw [hkind, hbracket]⟩
        rw [← hstack, hg, List.head?_cons, Option.mem_def]
      · rfl

/-- One more token, whatever it opens or closes, is one more token of the grouping. -/
theorem Grouping.tokens_step (g : Grouping) (t : Token) : (g.step t).tokens = g.tokens ++ [t] := by
  obtain ⟨bracket, -, hstep⟩ | ⟨b, rest, hstack, hstep⟩ | hstep := Grouping.step_cases g.stack t
  · rw [hstep g rfl]
    simp [Grouping.tokens, stackTokens, tokensOf]
  · rw [hstep g rfl, Grouping.tokens_add]
    simp [Grouping.tokens, hstack, stackTokens, OpenBlock.finish, Component.tokens]
  · rw [hstep g rfl, Grouping.tokens_add, Component.tokens]

theorem tokens_foldl_step (g : Grouping) (tokens : List Token) :
    (tokens.foldl Grouping.step g).tokens = g.tokens ++ tokens := by
  induction tokens generalizing g with
  | nil => simp
  | cons t tokens ih => rw [List.foldl_cons, ih, Grouping.tokens_step, List.append_assoc]; rfl

theorem tokensOf_endBlocks (last : Option Component) (top : List Component)
    (stack : List OpenBlock) :
    tokensOf (endBlocks last top stack).reverse =
      tokensOf top.reverse ++ stackTokens stack ++ tokensOf last.toList := by
  induction stack generalizing last with
  | nil => cases last <;> simp [endBlocks, stackTokens, tokensOf_append, tokensOf]
  | cons b rest ih =>
    rw [endBlocks, ih]
    cases last <;> simp [stackTokens, OpenBlock.finish, tokensOf, tokensOf_append, Component.tokens]

/-- Grouping tokens loses none of them and keeps their order. -/
theorem tokensOf_group (tokens : List Token) : tokensOf (group tokens) = tokens := by
  have htokens := tokens_foldl_step { top := [], stack := [] } tokens
  show tokensOf (endBlocks none _ _).reverse = tokens
  rw [tokensOf_endBlocks]
  simpa [Grouping.tokens, stackTokens, tokensOf] using htokens

/-- The components of a text spell the text. -/
theorem sourceOf_components (cs : List Char) : sourceOf (components cs) = cs := by
  rw [sourceOf_eq, components, tokensOf_group, flatMap_source_readTokens]

theorem components_nil : components [] = [] := by
  rw [components, readTokens]
  rfl

/-! ### Taking components apart -/

/-- A grouping with components before all others. -/
def Grouping.over (base : List Component) (g : Grouping) : Grouping :=
  { g with top := g.top ++ base }

theorem Grouping.over_step (base : List Component) (g : Grouping) (t : Token) :
    (g.over base).step t = (g.step t).over base := by
  have hadd (g : Grouping) (c : Component) : (g.over base).add c = (g.add c).over base := by
    unfold Grouping.add Grouping.over
    cases g.stack <;> rfl
  obtain ⟨bracket, -, hstep⟩ | ⟨b, rest, -, hstep⟩ | hstep := Grouping.step_cases g.stack t
  · rw [hstep g rfl, hstep (g.over base) rfl]
    rfl
  · rw [hstep g rfl, hstep (g.over base) rfl]
    exact hadd { g with stack := rest } _
  · rw [hstep g rfl, hstep (g.over base) rfl]
    exact hadd g _

/-- What was grouped before has no influence on what comes. -/
theorem foldl_step_over (base : List Component) (g : Grouping) (tokens : List Token) :
    tokens.foldl Grouping.step (g.over base) = (tokens.foldl Grouping.step g).over base := by
  induction tokens generalizing g with
  | nil => rfl
  | cons t tokens ih => rw [List.foldl_cons, List.foldl_cons, Grouping.over_step, ih]

theorem endBlocks_append (last : Option Component) (top base : List Component)
    (stack : List OpenBlock) :
    endBlocks last (top ++ base) stack = endBlocks last top stack ++ base := by
  induction stack generalizing last with
  | nil => simp [endBlocks]
  | cons b rest ih => rw [endBlocks, endBlocks, ih]

/-- Where no block is open, what follows is grouped on its own. -/
theorem result_foldl_step {g : Grouping} (h : g.stack = []) (tokens : List Token) :
    (tokens.foldl Grouping.step g).result = g.top.reverse ++ group tokens := by
  have hover : g = Grouping.over g.top { top := [], stack := [] } := by
    rw [Grouping.over, List.nil_append, ← h]
  rw [hover, foldl_step_over]
  unfold Grouping.result Grouping.over
  rw [endBlocks_append, List.reverse_append]
  rfl

/-- A token inside open blocks leaves the outermost one open, or it closes that. -/
theorem step_of_open {g : Grouping} (h : g.stack ≠ []) (t : Token) :
    ((g.step t).stack ≠ [] ∧ (g.step t).top = g.top) ∨
      ((g.step t).stack = [] ∧ ∃ b, (g.step t).top = b :: g.top) := by
  have hadd (g : Grouping) (h : g.stack ≠ []) (c : Component) :
      (g.add c).stack ≠ [] ∧ (g.add c).top = g.top := by
    unfold Grouping.add
    cases hstack : g.stack with
    | nil => exact absurd hstack h
    | cons b rest => simp
  obtain ⟨bracket, -, hstep⟩ | ⟨b, rest, hstack, hstep⟩ | hstep := Grouping.step_cases g.stack t
  · rw [hstep g rfl]
    exact .inl ⟨by simp, rfl⟩
  · rw [hstep g rfl]
    cases rest with
    | nil => exact .inr ⟨rfl, _, rfl⟩
    | cons b' rest => exact .inl (hadd { g with stack := b' :: rest } (by simp) _)
  · rw [hstep g rfl]
    exact .inl (hadd g h _)

/-- A block that is open at the end is the last component. -/
theorem endBlocks_of_open (last : Option Component) (top : List Component)
    {stack : List OpenBlock} (h : stack ≠ []) :
    ∃ b ∈ stack, ∃ content,
      endBlocks last top stack = .block b.opener b.bracket content none :: top := by
  induction stack generalizing last with
  | nil => exact absurd rfl h
  | cons b rest ih =>
    rw [endBlocks]
    cases rest with
    | nil => exact ⟨b, List.mem_singleton_self b, _, rfl⟩
    | cons b' rest =>
      obtain ⟨outer, hmem, hend⟩ := ih _ (List.cons_ne_nil _ _)
      exact ⟨outer, List.mem_cons_of_mem _ hmem, hend⟩

/-- The component that an open block becomes has all of its tokens, and the next one. -/
theorem exists_result_of_open {g : Grouping} (h : g.stack ≠ []) (tokens : List Token) :
    ∃ b after, (tokens.foldl Grouping.step g).result = g.top.reverse ++ b :: after ∧
      (stackTokens g.stack).length ≤ b.tokens.length ∧
      (tokens ≠ [] → (stackTokens g.stack).length < b.tokens.length) := by
  induction tokens generalizing g with
  | nil =>
    obtain ⟨b, -, content, hend⟩ := endBlocks_of_open none g.top h
    have htokens := tokensOf_endBlocks none g.top g.stack
    rw [hend, List.reverse_cons, tokensOf_append, List.append_assoc] at htokens
    have hblock := congrArg List.length (List.append_cancel_left htokens)
    refine ⟨.block b.opener b.bracket content none, [], ?_, Nat.le_of_eq ?_,
      fun hne => absurd rfl hne⟩
    · rw [List.foldl_nil, Grouping.result, hend, List.reverse_cons]
    · simpa [tokensOf] using hblock.symm
  | cons t tokens ih =>
    have htokens := g.tokens_step t
    obtain ⟨hstack, htop⟩ | ⟨hstack, b, htop⟩ := step_of_open h t
    · obtain ⟨b, after, hresult, hle, -⟩ := ih hstack
      have hlength : (stackTokens (g.step t).stack).length = (stackTokens g.stack).length + 1 := by
        have := congrArg List.length htokens
        rw [Grouping.tokens, Grouping.tokens, htop] at this
        simp only [List.length_append, List.length_singleton] at this
        omega
      exact ⟨b, after, by rw [List.foldl_cons, hresult, htop], by omega, fun _ => by omega⟩
    · -- The token closes the outermost block, and the others are grouped on their own.
      refine ⟨b, group tokens, ?_, ?_⟩
      · rw [List.foldl_cons, result_foldl_step hstack, htop]
        simp
      · have hlength : b.tokens.length = (stackTokens g.stack).length + 1 := by
          have := congrArg List.length htokens
          rw [Grouping.tokens, Grouping.tokens, htop, hstack, List.reverse_cons,
            tokensOf_append] at this
          simp only [List.length_append, List.length_singleton, stackTokens, tokensOf,
            List.length_nil] at this
          omega
        exact ⟨by omega, fun _ => by omega⟩

/-- Prefixes of the same components that have the same number of tokens are the same. -/
theorem eq_of_length_tokensOf {cs ds cs' ds' : List Component} (h : cs ++ cs' = ds ++ ds')
    (hlength : (tokensOf cs).length = (tokensOf ds).length) : cs = ds := by
  have hnil : ∀ {a : List Component}, (tokensOf a).length = 0 → a = [] := by
    intro a ha
    cases a with
    | nil => rfl
    | cons c a =>
      rw [tokensOf, List.length_append, Nat.add_eq_zero_iff, List.length_eq_zero_iff] at ha
      exact absurd ha.1 c.tokens_ne_nil
  obtain ⟨a, rfl, -⟩ | ⟨a, rfl, -⟩ := List.append_eq_append_iff.mp h
  · rw [tokensOf_append, List.length_append] at hlength
    rw [hnil (a := a) (by omega), List.append_nil]
  · rw [tokensOf_append, List.length_append] at hlength
    rw [hnil (a := a) (by omega), List.append_nil]

/-- Where the components of a text are split between two tokens, no block is open. -/
theorem group_of_split {tokens after : List Token} {t : Token} {cs ds : List Component}
    (h : group (tokens ++ t :: after) = cs ++ ds) (htokens : tokensOf cs = tokens) :
    (tokens.foldl Grouping.step { top := [], stack := [] }).stack = [] ∧ group tokens = cs := by
  have hresult : ((t :: after).foldl Grouping.step
      (tokens.foldl Grouping.step { top := [], stack := [] })).result = cs ++ ds := by
    rw [← List.foldl_append]
    exact h
  have htaken : (tokens.foldl Grouping.step { top := [], stack := [] }).tokens = tokens :=
    tokens_foldl_step _ tokens
  have hgroup : (tokens.foldl Grouping.step { top := [], stack := [] }).result = group tokens := rfl
  generalize tokens.foldl Grouping.step { top := [], stack := [] } = g at hresult htaken hgroup ⊢
  have hlength := congrArg List.length (htaken.trans htokens.symm)
  rw [Grouping.tokens, List.length_append] at hlength
  have hstack : g.stack = [] := by
    by_contra hopen
    obtain ⟨b, more, hopened, -, hlt⟩ := exists_result_of_open hopen (t :: after)
    have hpos : 0 < (stackTokens g.stack).length := by
      cases hg : g.stack with
      | nil => exact absurd hg hopen
      | cons b rest =>
        rw [stackTokens, List.length_append, List.length_cons]
        omega
    have hlt := hlt (List.cons_ne_nil _ _)
    rw [hopened] at hresult
    -- The components split before the block that is open or behind it, but not inside.
    obtain ⟨a, hcs, ha⟩ | ⟨a, htop, -⟩ := List.append_eq_append_iff.mp hresult
    · cases a with
      | nil =>
        rw [List.append_nil] at hcs
        rw [hcs] at hlength
        omega
      | cons b' a =>
        obtain ⟨rfl, -⟩ := List.cons.inj ha
        rw [hcs, tokensOf_append, tokensOf] at hlength
        simp only [List.length_append] at hlength
        omega
    · rw [htop, tokensOf_append, List.length_append] at hlength
      omega
  refine ⟨hstack, ?_⟩
  have hempty : group tokens = g.top.reverse := by
    rw [← hgroup, Grouping.result, hstack]
    rfl
  rw [result_foldl_step hstack] at hresult
  rw [hempty]
  refine eq_of_length_tokensOf hresult ?_
  simpa [hstack, stackTokens] using hlength

/-- Tokens that leave no block open are grouped on their own. With an open block, what comes after
would become part of it. -/
theorem group_append {tokens : List Token}
    (h : (tokens.foldl Grouping.step { top := [], stack := [] }).stack = []) (after : List Token) :
    group (tokens ++ after) = group tokens ++ group after := by
  have hempty : group tokens = _ ++ group [] := result_foldl_step h []
  have hnone : group [] = [] := rfl
  rw [hempty, hnone, List.append_nil, ← result_foldl_step h after, ← List.foldl_append]
  rfl

/-- What follows a semicolon outside all blocks may be replaced. It is read as on its own. -/
theorem components_replace {front more : List Char} {cs after : List Component}
    (h : components (front ++ ';' :: more) = cs ++ .token semicolon :: after)
    (hsource : sourceOf cs = front) (other : List Char) :
    components (front ++ ';' :: other) = cs ++ .token semicolon :: components other := by
  have htokens : readTokens (front ++ ';' :: more) =
      tokensOf cs ++ semicolon :: tokensOf after := by
    rw [← tokensOf_group (readTokens _), ← components, h, tokensOf_append]
    rfl
  have hother := readTokens_replace htokens (by rw [← sourceOf_eq, hsource]) other
  rw [components, htokens] at h
  obtain ⟨hstack, hcs⟩ := group_of_split h rfl
  have hsemicolon : group (semicolon :: readTokens other) = .token semicolon :: components other :=
    group_append (rfl : ([semicolon].foldl Grouping.step { top := [], stack := [] }).stack = []) _
  rw [components, hother, group_append hstack, hcs, hsemicolon]

end EmailMarkup.Css
