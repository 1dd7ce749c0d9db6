import EmailMarkup.Yaml.Token

/-!
# YAML documents

The tokens of a text are composed into a tree of scalars, sequences and mappings. An alias stands
for a node that an anchor names, which may be a node around it; so it stays in the tree, and is
followed when the tree is read. Only texts with at most one document are read.

Anchors are numbered as they come, each by the number of names before it, and an alias holds the
number that its name has at that place. A name may be given again. Then the next new name gets the
same number, and of two nodes with one number the later one counts.
-/

namespace EmailMarkup.Yaml

/-- What stands before a node. -/
structure Properties where
  /-- The number of its anchor. -/
  number? : Option Nat := none
  tag? : Option Tag := none
  deriving DecidableEq, Repr

/-- A node of a document. -/
inductive Node where
  | scalar (properties : Properties) (style : Style) (text : String)
  | sequence (properties : Properties) (items : List Node)
  | mapping (properties : Properties) (entries : List (Node × Node))
  | alias (number : Nat)
  deriving Repr, Inhabited

/-- The node of nothing. -/
def Node.empty : Node :=
  .scalar {} .plain ""

/-- What is left of the tokens, and the numbers that names of nodes have. -/
structure Pending where
  tokens : List Token
  anchors : List (String × Nat) := []

/-- Reads something off the tokens. -/
abbrev Composer := StateT Pending Option

namespace Composer

/-- The next token. -/
def peek : Composer (Option Token) :=
  return (← get).tokens.head?

/-- Passes over a token. -/
def skip : Composer Unit :=
  modify fun p => { p with tokens := p.tokens.tail }

/-- Numbers an anchor by how many names there are before it. -/
def numberAnchor (name : String) : Composer Nat := do
  let p ← get
  let number := p.anchors.length
  set { p with anchors := (name, number) :: p.anchors.filter fun (other, _) => other != name }
  return number

/-- The anchor and the tag before a node, in either order. -/
def written (handles : List (String × Tag)) : Composer (Option String × Option Tag) := do
  match ← peek with
  | some (.anchor name) =>
    skip
    match ← peek with
    | some (.tag t) => skip; return (some name, some (← t.resolve? handles))
    | _ => return (some name, none)
  | some (.tag t) =>
    skip
    let tag ← t.resolve? handles
    match ← peek with
    | some (.anchor name) => skip; return (some name, some tag)
    | _ => return (none, some tag)
  | _ => return (none, none)

/-- What stands before a node. Its anchor is known from here on, even in the node itself. -/
def properties (handles : List (String × Tag)) : Composer Properties := do
  let (anchor?, tag?) ← written handles
  match anchor? with
  | some name => return { number? := some (← numberAnchor name), tag? }
  | none => return { tag? }

/-- Whether a token ends what stands in a part of a block. -/
def endsBlockPart : Option Token → Bool
  | some .key | some .value | some .blockEnd | none => true
  | _ => false

/-- Whether a token ends what stands in a part of a flow collection. -/
def endsFlowPart : Option Token → Bool
  | some .value | some .flowEntry | some .flowSequenceEnd | some .flowMappingEnd | none => true
  | _ => false

mutual

/-- Reads a node. Blocks are read where they may stand, and so are sequences that are not
indented. -/
def node (handles : List (String × Tag)) (block indentless : Bool) : Nat → Composer Node
  | 0 => failure
  | fuel + 1 => do
    if let some (.alias name) ← peek then
      skip
      let some number := (← get).anchors.lookup name | failure
      return .alias number
    let p ← properties handles
    match ← peek, block, indentless with
    | some (.scalar style text), _, _ => skip; return .scalar p style text
    | some .flowSequence, _, _ => skip; return .sequence p (← flowItems handles true fuel)
    | some .flowMapping, _, _ => skip; return .mapping p (← flowEntries handles true fuel)
    | some .blockSequence, true, _ => skip; return .sequence p (← blockItems handles fuel)
    | some .blockMapping, true, _ => skip; return .mapping p (← blockEntries handles fuel)
    | some .blockEntry, _, true => return .sequence p (← looseItems handles fuel)
    | _, _, _ =>
      -- Properties with nothing after them are those of an empty scalar.
      if p = {} then failure
      return .scalar p .plain ""

/-- The entries of an indented sequence, to its end. -/
def blockItems (handles : List (String × Tag)) : Nat → Composer (List Node)
  | 0 => failure
  | fuel + 1 => do
    match ← peek with
    | some .blockEntry =>
      skip
      let next ← peek
      let item ← if next == some .blockEntry || next == some .blockEnd then pure .empty
        else node handles true false fuel
      return item :: (← blockItems handles fuel)
    | some .blockEnd => skip; return []
    | _ => failure

/-- The entries of a sequence that is not indented. -/
def looseItems (handles : List (String × Tag)) : Nat → Composer (List Node)
  | 0 => failure
  | fuel + 1 => do
    match ← peek with
    | some .blockEntry =>
      skip
      let next ← peek
      let item ← if next == some .blockEntry || endsBlockPart next then pure .empty
        else node handles true false fuel
      return item :: (← looseItems handles fuel)
    | _ => return []

/-- A part of a block mapping, which may be missing. -/
def blockPart (handles : List (String × Tag)) : Nat → Composer Node
  | 0 => failure
  | fuel + 1 => do
    if endsBlockPart (← peek) then return .empty else node handles true true fuel

/-- The entries of a block mapping, to its end. -/
def blockEntries (handles : List (String × Tag)) : Nat → Composer (List (Node × Node))
  | 0 => failure
  | fuel + 1 => do
    match ← peek with
    | some .key =>
      skip
      let key ← blockPart handles fuel
      let value ← if (← peek) == some .value then do skip; blockPart handles fuel else pure .empty
      return (key, value) :: (← blockEntries handles fuel)
    | some .blockEnd => skip; return []
    | _ => failure

/-- A part of a flow collection, which may be missing. -/
def flowPart (handles : List (String × Tag)) : Nat → Composer Node
  | 0 => failure
  | fuel + 1 => do
    if endsFlowPart (← peek) then return .empty else node handles false false fuel

/-- The value after a key in a flow collection, if there is one. -/
def flowValue (handles : List (String × Tag)) : Nat → Composer Node
  | 0 => failure
  | fuel + 1 => do
    if (← peek) == some .value then skip; flowPart handles fuel else return .empty

/-- A pair in a flow sequence after the mark of its key. If the key is missing, then the token in
its place is lost: the pair `? : ` is well written, but `? : a` has one part too many. -/
def flowPair (handles : List (String × Tag)) : Nat → Composer (Node × Node)
  | 0 => failure
  | fuel + 1 => do
    let next ← peek
    if next == some .value || next == some .flowEntry || next == some .flowSequenceEnd then
      skip
      return (.empty, ← flowValue handles fuel)
    else
      let key ← node handles false false fuel
      return (key, ← flowValue handles fuel)

/-- The items of a flow sequence, to its end. A pair among them is a mapping of one entry. -/
def flowItems (handles : List (String × Tag)) (first : Bool) : Nat → Composer (List Node)
  | 0 => failure
  | fuel + 1 => do
    -- Items are divided by commas, and one may stand after the last item.
    if !first && (← peek) != some .flowSequenceEnd then
      if (← peek) == some .flowEntry then skip else failure
    match ← peek with
    | some .flowSequenceEnd => skip; return []
    | some .key =>
      skip
      let item := Node.mapping {} [← flowPair handles fuel]
      return item :: (← flowItems handles false fuel)
    | _ =>
      let item ← node handles false false fuel
      return item :: (← flowItems handles false fuel)

/-- The entries of a flow mapping, to its end. -/
def flowEntries (handles : List (String × Tag)) (first : Bool) :
    Nat → Composer (List (Node × Node))
  | 0 => failure
  | fuel + 1 => do
    if !first && (← peek) != some .flowMappingEnd then
      if (← peek) == some .flowEntry then skip else failure
    match ← peek with
    | some .flowMappingEnd => skip; return []
    | some .key =>
      skip
      let key ← flowPart handles fuel
      let value ← flowValue handles fuel
      return (key, value) :: (← flowEntries handles false fuel)
    | _ =>
      let key ← node handles false false fuel
      return (key, .empty) :: (← flowEntries handles false fuel)

end

/-- The directives before a document: the handles they define. Only one version may be named, and it
has to be a known one. -/
def directives (versioned : Bool) (handles : List (String × Tag)) :
    List Token → Option (List (String × Tag) × List Token)
  | .version major minor :: rest =>
    if versioned || major != 1 || (minor != 1 && minor != 2) then none
    else directives true handles rest
  | .tagHandle handle meaning :: rest =>
    if (handles.lookup handle).isSome then none
    else directives versioned ((handle, meaning) :: handles) rest
  | .documentStart :: rest => some (handles, rest)
  | _ => none

/-- Whether tokens begin with one that only stands before or after a document. -/
def atDocumentEdge : List Token → Bool
  | [] => true
  | .version .. :: _ | .tagHandle .. :: _ | .documentStart :: _ | .documentEnd :: _ => true
  | _ => false

/-- The document at the start of tokens, and the tokens after it. -/
def document (handles : List (String × Tag)) (tokens : List Token) :
    Option (Node × List Token) :=
  -- From one token to the next there are at most four calls, so the fuel does not run out.
  ((node handles true false (4 * tokens.length + 4)).run { tokens }).map fun (made, pending) =>
    (made, pending.tokens)

end Composer

/-! ### Documents -/

mutual

/-- The nodes of a tree that have numbers, in the order in which they begin. -/
def Node.numbered (n : Node) : List (Nat × Node) :=
  match n with
  | .scalar p _ _ => p.number?.toList.map fun number => (number, n)
  | .sequence p items => (p.number?.toList.map fun number => (number, n)) ++ numberedAmong items
  | .mapping p entries =>
    (p.number?.toList.map fun number => (number, n)) ++ numberedAmongPairs entries
  | .alias _ => []

/-- The nodes with numbers among trees. -/
def numberedAmong : List Node → List (Nat × Node)
  | [] => []
  | n :: rest => n.numbered ++ numberedAmong rest

/-- The nodes with numbers among the entries of a mapping. -/
def numberedAmongPairs : List (Node × Node) → List (Nat × Node)
  | [] => []
  | (key, value) :: rest => key.numbered ++ value.numbered ++ numberedAmongPairs rest

end

/-- A document: its tree, and the nodes in it that have numbers, last first. -/
structure Document where
  root : Node
  numbered : List (Nat × Node)
  deriving Repr

namespace Document

/-- The document of a tree. -/
def ofRoot (root : Node) : Document :=
  { root, numbered := root.numbered.reverse }

/-- The node that a node stands for: of an alias, the last node with its number. -/
def follow (d : Document) : Node → Node
  | .alias number => (d.numbered.lookup number).getD .empty
  | n => n

/-- The document of a text, if there is one. The result is `none` if the text is not well written or
has several documents. -/
def read? (text : String) : Option (Option Document) := do
  let tokens ← tokens? text.toList
  if tokens.isEmpty then return none
  let (root, rest) ←
    match tokens with
    | .version .. :: _ | .tagHandle .. :: _ | .documentStart :: _ => do
      let (handles, content) ← Composer.directives false [] tokens
      if Composer.atDocumentEdge content then some (.empty, content)
      else Composer.document handles content
    | _ => Composer.document [] tokens
  -- Marks at the end are passed over, and a second document is refused.
  if (rest.dropWhile (· == .documentEnd)).isEmpty then return some (ofRoot root) else failure

end Document

end EmailMarkup.Yaml
