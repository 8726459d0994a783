import ReactiveView.Value.Basic
/-!
# Outlines of values

The outline of a value is the tree of its members' segments, without the scalars at the ends. It is
what an observable graph takes over from a value.
-/
namespace ReactiveView

/-- A member: the segment that leads to it, and the members below it. -/
inductive Outline where
  | member (segment : Segment) (below : List Outline)
  deriving Repr

namespace Value

mutual

/-- The members of a value, each with the members below it. -/
def outline : Value → List Outline
  | .list items => outlineItems 0 items
  | .record entries => outlineEntries entries
  | _ => []

/-- The elements of a list, numbered from the given index on. -/
def outlineItems (n : Nat) : List Value → List Outline
  | [] => []
  | v :: rest => .member (.index n) (outline v) :: outlineItems (n + 1) rest

/-- The entries of a record. -/
def outlineEntries : List (String × Value) → List Outline
  | [] => []
  | (k, v) :: rest => .member (.field k) (outline v) :: outlineEntries rest

end

end Value

end ReactiveView
