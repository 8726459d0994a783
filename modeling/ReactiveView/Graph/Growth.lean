import ReactiveView.Graph.Basic
import ReactiveView.Value.Outline
/-!
# How graphs grow

New nodes, new links, and the nodes for the members of a value. A member that has a node already
keeps it, so a value that has grown can be passed again, and only what is new gets nodes.

A change that refuses leaves the graph as it was.
-/
namespace ReactiveView.Graph

variable {ω : Type}

/-- The graph with what a node stands for changed. -/
def mapProperty (g : Graph ω) (id : Nat) (f : Property ω → Property ω) : Graph ω :=
  { g with forest := g.forest.mapContent id fun slot => slot.map f }

/-- The graph with a node more, which stands alone. Its number is the former size of the forest. -/
def push (g : Graph ω) (key : String) (source : Source) : Graph ω :=
  { g with forest := g.forest.push (some ⟨key, source, [], none⟩) }

/-- The graph with a node under a new parent. -/
def attach (g : Graph ω) (parent child : Nat) : Graph ω :=
  { g with forest := g.forest.attach parent child }

/-- The graph with a node more, the last child of a parent that is there. -/
def pushChild (g : Graph ω) (parent : Nat) (key : String) (source : Source) : Graph ω :=
  let id := g.forest.size
  (g.push key source).attach parent id

/-- A node more, under a parent or standing alone. -/
def insert (g : Graph ω) (key : String) (source : Source) (parent : Option Nat) :
    Except Error (Nat × Graph ω) :=
  match parent with
  | none => .ok (g.forest.size, g.push key source)
  | some p =>
    if g.contains p then .ok (g.forest.size, g.pushChild p key source)
    else .error (.nodeNotFound p)

/-- A computed node more. It can be found by its name, but no cascade from the root reaches it. -/
def insertComputed (g : Graph ω) (name : String) : Nat × Graph ω :=
  let grown := g.push name (.computed name)
  (g.forest.size, { grown with computed := g.computed ++ [g.forest.size] })

/-- A number drawn without a node. -/
def draw (g : Graph ω) : Nat × Graph ω :=
  (g.forest.size, { g with forest := g.forest.push none })

/-- A node moved to the end of the children of another, which must not be the node itself or one
below it. -/
def link (g : Graph ω) (parent child : Nat) : Except Error (Graph ω) :=
  if !g.contains child then .error (.nodeNotFound child)
  else if !g.contains parent then .error (.nodeNotFound parent)
  else if g.forest.isAtOrAbove child parent then .error (.cyclicLink parent child)
  else .ok (g.attach parent child)

/-- An observer added to a node, behind those it has. -/
def observe (g : Graph ω) (id : Nat) (observer : ω) : Except Error (Graph ω) :=
  if g.contains id then
    .ok (g.mapProperty id fun p => { p with observers := p.observers ++ [observer] })
  else .error (.nodeNotFound id)

/-- The value recorded as the one that the last write replaced. -/
def setPrevious (g : Graph ω) (id : Nat) (value : Value) : Except Error (Graph ω) :=
  if g.contains id then .ok (g.mapProperty id fun p => { p with previous := some value })
  else .error (.nodeNotFound id)

mutual

/-- A node for a member below a parent at a path, unless it has one, and nodes for what is below
the member. -/
def growMember (parent : Nat) (base : Path) (g : Graph ω) : Outline → Graph ω
  | .member s below =>
    match g.childByKey parent s.key with
    | some id => growMembers id (base ++ [s]) g below
    | none =>
      growMembers g.forest.size (base ++ [s])
        (g.pushChild parent s.key (.data (base ++ [s]))) below

/-- Nodes for members in a row. -/
def growMembers (parent : Nat) (base : Path) (g : Graph ω) : List Outline → Graph ω
  | [] => g
  | m :: rest => growMembers parent base (growMember parent base g m) rest

end

/-- Nodes for the members of a value that lives at a path, below the node of the value. A value
without members needs no node. -/
def grow (g : Graph ω) (value : Value) (parent : Nat) (base : Path) : Except Error (Graph ω) :=
  if value.outline.isEmpty then .ok g
  else if g.contains parent then .ok (growMembers parent base g value.outline)
  else .error (.nodeNotFound parent)

/-- The graph of a data tree. -/
def ofData (data : Value) : Graph ω := growMembers root [] bare data.outline

/-- A change of the nodes and links of a graph. -/
inductive Edit where
  | insert (key : String) (source : Source) (parent : Option Nat)
  | insertComputed (name : String)
  | draw
  | link (parent child : Nat)
  | setPrevious (id : Nat) (value : Value)
  | grow (value : Value) (parent : Nat) (base : Path)

/-- What a change answers: the number of a new node or a drawn number, and nothing otherwise. -/
abbrev Edit.Reply : Edit → Type
  | .insert .. | .insertComputed _ | .draw => Nat
  | _ => Unit

/-- The result of a change that refuses without an effect. -/
def settle (g : Graph ω) : Except Error (Graph ω) → Except Error Unit × Graph ω
  | .ok g' => (.ok (), g')
  | .error e => (.error e, g)

/-- What a change answers, and the graph after it. -/
def apply (g : Graph ω) : (e : Edit) → Except Error e.Reply × Graph ω
  | .insert key source parent =>
    match g.insert key source parent with
    | .ok (id, g') => (.ok id, g')
    | .error e => (.error e, g)
  | .insertComputed name => (.ok (g.insertComputed name).1, (g.insertComputed name).2)
  | .draw => (.ok g.draw.1, g.draw.2)
  | .link parent child => g.settle (g.link parent child)
  | .setPrevious id value => g.settle (g.setPrevious id value)
  | .grow value parent base => g.settle (g.grow value parent base)

end ReactiveView.Graph
