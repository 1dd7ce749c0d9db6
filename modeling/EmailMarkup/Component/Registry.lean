import EmailMarkup.Component.Core

/-!
# Registries

The components that a compilation knows, by their tags. Registering a component under a tag that is
taken replaces the earlier one.
-/

namespace EmailMarkup.Component

/-- Components by their tags. -/
structure Registry where
  components : OrderedMap Spec
  deriving Repr

namespace Registry

/-- The registry without components. -/
def empty : Registry :=
  { components := ∅ }

/-- Adds a component, or replaces the one of its tag. -/
def register (r : Registry) (s : Spec) : Registry :=
  { components := r.components.insert s.tag s }

/-- Adds components from left to right. -/
def registerAll (r : Registry) (specs : List Spec) : Registry :=
  specs.foldl register r

/-- The registry of the core components. -/
def core : Registry :=
  empty.registerAll Core.specs

/-- The component of a tag. -/
def get? (r : Registry) (tag : String) : Option Spec :=
  r.components.get? tag

/-- Whether a tag is known. -/
def has (r : Registry) (tag : String) : Bool :=
  (r.get? tag).isSome

/-- Whether the elements of a tag are passed through. An unknown tag is not. -/
def isRaw (r : Registry) (tag : String) : Bool :=
  match r.get? tag with
  | some s => s.raw
  | none => false

/-- The known tags, in the order of their characters. -/
def tags (r : Registry) : List String :=
  -- Characters are ordered by their code points, as their bytes in UTF-8 are.
  r.components.keys.mergeSort fun a b => decide (a ≤ b)

end Registry

end EmailMarkup.Component
