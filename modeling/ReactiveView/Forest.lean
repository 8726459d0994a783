/-!
# Forests

Nodes that are numbered in the order of their creation, each with at most one parent and an ordered
list of children. Surfaces and observable graphs are forests with different contents. Nodes are
never removed: a node that is taken out of its place stays, without a parent.

The link between a parent and a child is kept at both ends. `attach` and `detachChildren` change
both together, and `attach` is only meant for a parent that is not below the child.
-/
namespace ReactiveView

namespace Forest

/-- A node: its content and its place. -/
structure Node (α : Type) where
  content : α
  parent : Option Nat
  children : List Nat

end Forest

/-- Nodes by their numbers. -/
structure Forest (α : Type) where
  nodes : Array (Forest.Node α)

namespace Forest

variable {α β : Type}

/-- The forest without nodes. -/
def empty : Forest α := ⟨#[]⟩

/-- The number of nodes. -/
def size (f : Forest α) : Nat := f.nodes.size

/-- The node of a number. -/
def node? (f : Forest α) (i : Nat) : Option (Node α) := f.nodes[i]?

/-- The content of a node. -/
def content? (f : Forest α) (i : Nat) : Option α := (f.node? i).map (·.content)

/-- The parent of a node. -/
def parent? (f : Forest α) (i : Nat) : Option Nat := (f.node? i).bind (·.parent)

/-- The children of a node, in order. -/
def children (f : Forest α) (i : Nat) : List Nat := ((f.node? i).map (·.children)).getD []

/-- The forest with a node more, which stands alone; its number is the former size. -/
def push (f : Forest α) (a : α) : Forest α := ⟨f.nodes.push ⟨a, none, []⟩⟩

/-- The forest with the content of a node changed. -/
def mapContent (f : Forest α) (i : Nat) (g : α → α) : Forest α :=
  ⟨f.nodes.modify i fun n => { n with content := g n.content }⟩

/-- The forest with the children of a node changed, at this end of the links only. -/
def mapChildren (f : Forest α) (i : Nat) (g : List Nat → List Nat) : Forest α :=
  ⟨f.nodes.modify i fun n => { n with children := g n.children }⟩

/-- The forest with the parent of a node changed, at this end of the link only. -/
def setParent (f : Forest α) (i : Nat) (parent : Option Nat) : Forest α :=
  ⟨f.nodes.modify i fun n => { n with parent }⟩

/-- The forest with a node taken out of its place. -/
def detach (f : Forest α) (i : Nat) : Forest α :=
  match f.parent? i with
  | none => f
  | some p => (f.mapChildren p fun cs => cs.filter (· ≠ i)).setParent i none

/-- The forest with a node moved to the end of the children of another. -/
def attach (f : Forest α) (parent child : Nat) : Forest α :=
  ((f.detach child).mapChildren parent fun cs => cs ++ [child]).setParent child (some parent)

/-- The forest with all children of a node taken out of their places. -/
def detachChildren (f : Forest α) (i : Nat) : Forest α :=
  (f.children i).foldl (fun f c => f.setParent c none) (f.mapChildren i fun _ => [])

/-- The forest with every content changed. -/
def map (g : α → β) (f : Forest α) : Forest β :=
  ⟨f.nodes.map fun n => ⟨g n.content, n.parent, n.children⟩⟩

/-- The nodes above a node, the nearest first, as far as a number of steps. -/
def ancestorsWithin (f : Forest α) : Nat → Nat → List Nat
  | 0, _ => []
  | steps + 1, i =>
    match f.parent? i with
    | none => []
    | some p => p :: f.ancestorsWithin steps p

/-- The nodes above a node, the nearest first. No line of parents is longer than the forest. -/
def ancestors (f : Forest α) (i : Nat) : List Nat := f.ancestorsWithin f.size i

/-- The nodes below a node, as far as a number of levels: each child before its own children. -/
def descendantsWithin (f : Forest α) : Nat → Nat → List Nat
  | 0, _ => []
  | levels + 1, i => (f.children i).flatMap fun c => c :: f.descendantsWithin levels c

/-- The nodes below a node, each child before its own children. No line of children is longer than
the forest. -/
def descendants (f : Forest α) (i : Nat) : List Nat := f.descendantsWithin f.size i

/-- Whether a node is another one or above it: then it must not become a child there. -/
def isAtOrAbove (f : Forest α) (above i : Nat) : Bool := i == above || (f.ancestors i).contains above

end Forest

end ReactiveView
