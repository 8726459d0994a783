import ReactiveView.Forest
import ReactiveView.Value.Basic
/-!
# Observable graphs

An observable graph has a node for every member of the data that is observed, and one for every
computed property. The nodes of data form a tree below the root, whose links follow the nesting of
the data; computed nodes stand beside it. A node carries the observers that are to hear of it, for
which any type may stand, and the value that the last write to it replaced.

Nodes are numbered as they are created, and numbers are never used again. A number can also be
drawn without a node; its place in the forest then stays empty.
-/
namespace ReactiveView

/-- Where the value of a node comes from. -/
inductive Source where
  | root
  | data (path : Path)
  | computed (name : String)
  deriving DecidableEq, Repr

/-- What a node stands for: its key below its parent, the source of its value, its observers in
order, and the value replaced by the last write. -/
structure Property (ω : Type) where
  key : String
  source : Source
  observers : List ω
  previous : Option Value

/-- Observable nodes, and the computed ones among them in order. -/
structure Graph (ω : Type) where
  forest : Forest (Option (Property ω))
  computed : List Nat

namespace Graph

variable {ω : Type}

/-- The number of the root. -/
def root : Nat := 0

/-- The key of the root. -/
def rootKey : String := "$root"

/-- The graph that has its root only. -/
def bare : Graph ω := ⟨Forest.empty.push (some ⟨rootKey, .root, [], none⟩), []⟩

/-- What a node stands for, if there is one of this number. -/
def property? (g : Graph ω) (id : Nat) : Option (Property ω) := (g.forest.content? id).join

/-- What a node stands for. -/
def property (g : Graph ω) (id : Nat) : Except Error (Property ω) :=
  match g.property? id with
  | some p => .ok p
  | none => .error (.nodeNotFound id)

theorem property_eq_ok {g : Graph ω} {id : Nat} {p : Property ω} :
    g.property id = .ok p ↔ g.property? id = some p := by
  unfold property
  cases g.property? id <;> simp

/-- Whether there is a node of this number. -/
def contains (g : Graph ω) (id : Nat) : Bool := (g.property? id).isSome

/-- The numbers of all nodes, in the order of creation. -/
def ids (g : Graph ω) : List Nat := (List.range g.forest.size).filter g.contains

/-- The number of nodes. -/
def size (g : Graph ω) : Nat := g.ids.length

/-- The children of a node, in order. -/
def children (g : Graph ω) (id : Nat) : Except Error (List Nat) :=
  (g.property id).map fun _ => g.forest.children id

/-- The parent of a node. -/
def parent (g : Graph ω) (id : Nat) : Except Error (Option Nat) :=
  (g.property id).map fun _ => g.forest.parent? id

/-- The nodes below a node, each child before its own children. -/
def descendants (g : Graph ω) (id : Nat) : Except Error (List Nat) :=
  (g.property id).map fun _ => g.forest.descendants id

/-- The nodes above a node, the nearest first. -/
def ancestors (g : Graph ω) (id : Nat) : Except Error (List Nat) :=
  (g.property id).map fun _ => g.forest.ancestors id

/-- Whether a node has a key. -/
def hasKey (g : Graph ω) (key : String) (id : Nat) : Bool :=
  (g.property? id).any fun p => p.key == key

/-- The child of a node that has a key. -/
def childByKey (g : Graph ω) (id : Nat) (key : String) : Option Nat :=
  (g.forest.children id).find? (g.hasKey key)

/-- The node that a path leads to, key by key. The first key may be that of a computed node. -/
def resolve (g : Graph ω) : Path → Option Nat
  | [] => some root
  | first :: rest => do
    let start ← (g.childByKey root first.key).or (g.computed.find? (g.hasKey first.key))
    rest.foldlM (fun id s => g.childByKey id s.key) start

/-- The graph without its observers; their number can still be seen. -/
def outline (g : Graph ω) : Graph Unit :=
  ⟨g.forest.map fun slot => slot.map fun p => { p with observers := p.observers.map fun _ => () },
    g.computed⟩

end Graph

end ReactiveView
