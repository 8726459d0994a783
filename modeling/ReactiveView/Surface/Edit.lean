import ReactiveView.Surface.Basic
/-!
# Edits of surfaces

What can be done to a surface: markup can be read into it, nodes can be moved and taken out,
texts and attributes can be written.

An edit that refuses leaves the surface as it was, with one exception: writing the text of a node
that cannot have children makes the text node first and then finds no place for it.
-/
namespace ReactiveView

namespace Surface

variable {ℓ : Type}

/-- The surface with a node more, outside the document. -/
def push (s : Surface ℓ) (c : Content) : Surface ℓ := ⟨s.forest.push ⟨c, []⟩⟩

/-- The surface with a node under a new parent, links only. -/
def attach (s : Surface ℓ) (parent child : Nat) : Surface ℓ := ⟨s.forest.attach parent child⟩

/-- The surface with the content of a node changed. -/
def mapContent (s : Surface ℓ) (i : Nat) (g : Content → Content) : Surface ℓ :=
  ⟨s.forest.mapContent i fun item => { item with content := g item.content }⟩

mutual

/-- A fragment made into nodes outside the document, each node before its children. The new node's
number is the former size. -/
def insert (s : Surface ℓ) : Fragment → Surface ℓ
  | .text t => s.push (.text t)
  | .comment t => s.push (.comment t)
  | .element tag attributes children =>
    insertUnder s.size (s.push (.element tag attributes)) children

/-- Fragments made into the last children of a node. -/
def insertUnder (parent : Nat) (s : Surface ℓ) : List Fragment → Surface ℓ
  | [] => s
  | f :: rest =>
    let top := s.size
    insertUnder parent ((s.insert f).attach parent top) rest

end

/-- Fragments made into nodes outside the document, and the number of each one's top. -/
def insertAll (s : Surface ℓ) : List Fragment → List Nat × Surface ℓ
  | [] => ([], s)
  | f :: rest =>
    let top := s.size
    let (tops, s') := (s.insert f).insertAll rest
    (top :: tops, s')

/-- Markup made into nodes outside the document. -/
def parseFragment (s : Surface ℓ) (source : String) : Except Error (List Nat × Surface ℓ) :=
  (Markup.read source).map s.insertAll

/-- A node moved to the end of the children of another. -/
def append (s : Surface ℓ) (parent child : Nat) : Except Error (Surface ℓ) :=
  match s.content? parent, s.content? child with
  | none, _ => .error (.surfaceNodeNotFound parent)
  | _, none => .error (.surfaceNodeNotFound child)
  | some (.text _), _ | some (.comment _), _ =>
    .error (.markup "Cannot append to a text or comment node" 0)
  | some _, some _ =>
    if s.forest.isAtOrAbove child parent then
      .error (.markup "Cannot append a node to its own subtree" 0)
    else .ok (s.attach parent child)

/-- All children of a node taken out. -/
def clear (s : Surface ℓ) (i : Nat) : Except Error (Surface ℓ) :=
  (s.content i).map fun _ => ⟨s.forest.detachChildren i⟩

/-- Markup added at the end of the document. -/
def load (s : Surface ℓ) (source : String) : Except Error (Surface ℓ) := do
  let (tops, s) ← s.parseFragment source
  tops.foldlM (fun s i => s.append document i) s

/-- The only child of a node, if it is a text. -/
def loneText? (s : Surface ℓ) (i : Nat) : Option Nat :=
  match s.forest.children i with
  | [only] =>
    match s.content? only with
    | some (.text _) => some only
    | _ => none
  | _ => none

/-- A text in place of everything below a node. A text that is there alone is written over. -/
def setText (s : Surface ℓ) (i : Nat) (t : String) : Except Error Unit × Surface ℓ :=
  match s.content? i with
  | none => (.error (.surfaceNodeNotFound i), s)
  | some _ =>
    match s.loneText? i with
    | some only => (.ok (), s.mapContent only fun _ => .text t)
    | none =>
      let cleared : Surface ℓ := ⟨(s.push (.text t)).forest.detachChildren i⟩
      match cleared.append i s.size with
      | .ok s' => (.ok (), s')
      | .error e => (.error e, cleared)

/-- An attribute written. Names are kept in lower case; only elements have attributes. -/
def setAttribute (s : Surface ℓ) (i : Nat) (name value : String) : Except Error (Surface ℓ) :=
  match s.content? i with
  | none => .error (.surfaceNodeNotFound i)
  | some (.element tag attributes) =>
    .ok (s.mapContent i fun _ => .element tag (attributes.insert (Text.lowered name) value))
  | some _ =>
    .error (.markup
      ("Cannot set attribute '" ++ Text.lowered name ++ "' on a non-element node") 0)

/-- An attribute taken away, by its exact name. -/
def removeAttribute (s : Surface ℓ) (i : Nat) (name : String) : Except Error (Surface ℓ) :=
  match s.content? i with
  | none => .error (.surfaceNodeNotFound i)
  | some (.element tag attributes) =>
    .ok (s.mapContent i fun _ => .element tag (attributes.erase name))
  | some _ => .ok s

/-- A listener put on a node. -/
def listen (s : Surface ℓ) (i : Nat) (event : String) (listener : ℓ) :
    Except Error (Surface ℓ) :=
  (s.content i).map fun _ =>
    ⟨s.forest.mapContent i fun item =>
      { item with listeners := item.listeners ++ [(event, listener)] }⟩

/-- An edit of a surface. -/
inductive Edit where
  | load (markup : String)
  | fragment (markup : String)
  | append (parent child : Nat)
  | clear (node : Nat)
  | setText (node : Nat) (text : String)
  | setAttribute (node : Nat) (name value : String)
  | removeAttribute (node : Nat) (name : String)
  deriving DecidableEq, Repr

/-- What an edit answers: the new top nodes of a fragment, and nothing otherwise. -/
abbrev Edit.Reply : Edit → Type
  | .fragment _ => List Nat
  | _ => Unit

/-- The result of an edit that refuses without a change. -/
def settle (s : Surface ℓ) : Except Error (Surface ℓ) → Except Error Unit × Surface ℓ
  | .ok s' => (.ok (), s')
  | .error e => (.error e, s)

/-- What an edit answers, and the surface after it. -/
def apply (s : Surface ℓ) : (e : Edit) → Except Error e.Reply × Surface ℓ
  | .load source => s.settle (s.load source)
  | .fragment source =>
    match s.parseFragment source with
    | .ok (tops, s') => (.ok tops, s')
    | .error e => (.error e, s)
  | .append parent child => s.settle (s.append parent child)
  | .clear i => s.settle (s.clear i)
  | .setText i t => s.setText i t
  | .setAttribute i name value => s.settle (s.setAttribute i name value)
  | .removeAttribute i name => s.settle (s.removeAttribute i name)

/-- The surface with a markup text as its document. -/
def ofMarkup (source : String) : Except Error (Surface ℓ) := blank.load source

end Surface

end ReactiveView
