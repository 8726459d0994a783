import ReactiveView.Forest
import ReactiveView.Markup.Tree
import ReactiveView.Selector
/-!
# Surfaces

A surface is what a page renders into: a forest of nodes, of which the first is the document. A
node is the document, an element, a text or a comment, and carries the listeners that were put on
it, for which any type may stand. Nodes are only ever added, so the number of a node stays valid
when the node is taken out of the document.

This module holds what can be read from a surface. Only nodes that are there can be asked.
-/
namespace ReactiveView

/-- What a node of a surface is. -/
inductive Content where
  | document
  | element (tag : String) (attributes : Entries String)
  | text (s : String)
  | comment (s : String)
  deriving DecidableEq, Repr

/-- The name of what a node is. -/
def Content.kind : Content → String
  | .document => "document"
  | .element .. => "element"
  | .text _ => "text"
  | .comment _ => "comment"

/-- A node of a surface without its place: what it is, and its listeners by event. -/
structure Item (ℓ : Type) where
  content : Content
  listeners : List (String × ℓ)

/-- A tree of nodes to render into, with the nodes that are outside the tree. -/
structure Surface (ℓ : Type) where
  forest : Forest (Item ℓ)

namespace Surface

variable {ℓ : Type}

/-- The number of the document. -/
def document : Nat := 0

/-- The surface with an empty document. -/
def blank : Surface ℓ := ⟨Forest.empty.push ⟨.document, []⟩⟩

/-- The number of nodes, those outside the document included. -/
def size (s : Surface ℓ) : Nat := s.forest.size

/-- The content of a node, if it is there. -/
def content? (s : Surface ℓ) (i : Nat) : Option Content := (s.forest.content? i).map (·.content)

/-- The surface without its listeners. -/
def outline (s : Surface ℓ) : Surface Unit :=
  ⟨s.forest.map fun item => ⟨item.content, item.listeners.map fun l => (l.1, ())⟩⟩

/-- The content of a node. -/
def content (s : Surface ℓ) (i : Nat) : Except Error Content :=
  match s.content? i with
  | some c => .ok c
  | none => .error (.surfaceNodeNotFound i)

/-- The name of what a node is. -/
def kind (s : Surface ℓ) (i : Nat) : Except Error String := (s.content i).map Content.kind

/-- The tag of an element; other nodes have none. -/
def tag (s : Surface ℓ) (i : Nat) : Except Error (Option String) :=
  (s.content i).map fun
    | .element tag _ => some tag
    | _ => none

/-- The value of an attribute, by its exact name. -/
def attributeValue (s : Surface ℓ) (i : Nat) (name : String) : Except Error (Option String) :=
  (s.content i).map fun
    | .element _ attributes => attributes.get? name
    | _ => none

/-- The names of the attributes, in order. -/
def attributeNames (s : Surface ℓ) (i : Nat) : Except Error (List String) :=
  (s.content i).map fun
    | .element _ attributes => attributes.keys
    | _ => []

/-- The children of a node, in order. -/
def children (s : Surface ℓ) (i : Nat) : Except Error (List Nat) :=
  (s.content i).map fun _ => s.forest.children i

/-- The parent of a node. -/
def parent (s : Surface ℓ) (i : Nat) : Except Error (Option Nat) :=
  (s.content i).map fun _ => s.forest.parent? i

/-- The markup of a node and what is below it, as far as a number of levels. The document is no
markup itself. -/
def fragmentsWithin (s : Surface ℓ) : Nat → Nat → List Fragment
  | 0, _ => []
  | levels + 1, i =>
    let below := (s.forest.children i).flatMap (s.fragmentsWithin levels)
    match s.content? i with
    | none => []
    | some .document => below
    | some (.element tag attributes) => [.element tag attributes below]
    | some (.text t) => [.text t]
    | some (.comment t) => [.comment t]

/-- The markup of a node and what is below it. -/
def fragments (s : Surface ℓ) (i : Nat) : List Fragment := s.fragmentsWithin s.size i

/-- The markup text of the children of a node. -/
def innerMarkup (s : Surface ℓ) (i : Nat) : Except Error String :=
  (s.children i).map fun cs => Markup.write (cs.flatMap s.fragments)

/-- The markup text of a node. -/
def outerMarkup (s : Surface ℓ) (i : Nat) : Except Error String :=
  (s.content i).map fun _ => Markup.write (s.fragments i)

/-- The text of a text node; other nodes have none of their own. -/
def ownText (s : Surface ℓ) (i : Nat) : String :=
  match s.content? i with
  | some (.text t) => t
  | _ => ""

/-- The texts at and below a node, joined in order. -/
def textContent (s : Surface ℓ) (i : Nat) : Except Error String :=
  (s.content i).map fun _ => String.join ((i :: s.forest.descendants i).map s.ownText)

/-- Whether a node is an element that a selector matches. -/
def isMatch (s : Surface ℓ) (selector : Selector) (i : Nat) : Bool :=
  match s.content? i with
  | some (.element tag attributes) => selector.isMatch tag attributes.get?
  | _ => false

/-- The elements of the document that a selector matches, in document order. -/
def select (s : Surface ℓ) (selector : Selector) : List Nat :=
  (document :: s.forest.descendants document).filter (s.isMatch selector)

/-- The elements of the document that a selector text matches, in document order. -/
def queryAll (s : Surface ℓ) (source : String) : Except Error (List Nat) :=
  (Selector.read source).map s.select

/-- The first element of the document that a selector text matches. -/
def query (s : Surface ℓ) (source : String) : Except Error (Option Nat) :=
  (s.queryAll source).map List.head?

/-- The first element of the document that a selector text matches; there has to be one. -/
def find (s : Surface ℓ) (source : String) : Except Error Nat := do
  match ← s.query source with
  | some i => .ok i
  | none => .error (.selectorNotFound source)

/-- The listeners of a node for an event, in the order in which they came. -/
def listeners (s : Surface ℓ) (i : Nat) (event : String) : Except Error (List ℓ) :=
  match s.forest.content? i with
  | some item => .ok ((item.listeners.filter (·.1 == event)).map (·.2))
  | none => .error (.surfaceNodeNotFound i)

end Surface

end ReactiveView
