import ReactiveView.Cascade
import ReactiveView.Page.Basic
import ReactiveView.Value.Json
/-!
# Reading and writing a page

Names of a page are first members of the data, then computed properties; methods are reached by
calls only. A write goes to the data, is recorded at the node that its path leads to, and runs the
cascade of that node. A write whose path leads to no node is silent.

What the programs of the page do is a parameter here, `run`, and so is the depth of cascades.
-/
namespace ReactiveView.Page

variable {σ : Type} (run : Program σ → Run (Page σ) Value)

/-- The value of a top-level name. -/
def lookup (name : String) : Run (Page σ) (Option Value) := do
  match ← Run.look fun p => p.data.field? name with
  | some v => pure (some v)
  | none =>
    match ← Run.look fun p => p.computed name with
    | some program => do
      let v ← run program
      pure (some v)
    | none => pure none

/-- The answer of a method. -/
def invoke (name : String) : Run (Page σ) Value := do
  match ← Run.look fun p => p.methods name with
  | some program => run program
  | none => Run.fail (.notCallable (name ++ "()"))

/-- The names of the page, or those of a plain data tree. -/
def names : ScopeName → Names (Page σ)
  | .page => ⟨lookup run, invoke run⟩
  | .plain name => (plainScope name).toNames

/-- The current value of a source; what is absent is null. -/
def valueOf : Source → Run (Page σ) Value
  | .root => Run.look fun p => p.data
  | .data path => Run.look fun p => (p.data.at? path).getD .null
  | .computed name => do
    match ← Run.look fun p => p.computed name with
    | some program => run program
    | none => pure .null

/-- A text written into the target of a node. -/
def writeTarget (node : Nat) (target : Target) (text : String) : Run (Page σ) Unit :=
  match target with
  | .content => editSurface (.setText node text)
  | .attributeNamed name => editSurface (.setAttribute node name text)

/-- The text in the target of a node; an attribute that is not there counts as empty. -/
def readTarget (node : Nat) : Target → Run (Page σ) String
  | .content => askSurface fun s => s.textContent node
  | .attributeNamed name => do
    let value ← askSurface fun s => s.attributeValue node name
    pure (value.getD "")

/-- The value of a binding's expression, rendered into its node. -/
def render (b : Binding) : Run (Page σ) Unit := do
  let v ← b.expression.evaluate (names run b.scope)
  writeTarget b.node b.target v.render

/-- The call of an observer. A binding reads its expression anew. -/
def callObserver (o : Observer σ) (current previous : Value) : Run (Page σ) Unit :=
  match o with
  | .binding b => render run b
  | .watcher w => do
    let _ ← run (w current previous)
    pure ()

/-- The cascades of a page. -/
def cascade : Cascade (Page σ) (Observer σ) where
  graph := Page.graph
  value := valueOf run
  call := callObserver run

variable (depth : Nat)

/-- A write to the data and the cascade of the node written, if there is one. -/
def write (path : Path) (x : Value) : Run (Page σ) (Option Nat) := do
  let replaced ← Run.edit Page.data (fun v p => { p with data := v }) fun data =>
    match data.set path x with
    | .ok (old, data') => (.ok old, data')
    | .error e => (.error e, data)
  match ← Run.look fun p => p.graph.resolve path with
  | none => pure none
  | some id => do
    onGraph fun g => g.settle (g.setPrevious id replaced)
    (cascade run).notifyAll depth id
    pure (some id)

/-- Whether a path starts with a name that the data does not own and a computed property or a method
does. -/
def isReadOnly (p : Page σ) : Path → Bool
  | .field name :: _ =>
    (p.data.field? name).isNone && ((p.computed name).isSome || (p.methods name).isSome)
  | _ => false

/-- A write that refuses computed properties and methods. -/
def assign (path : Path) (x : Value) : Run (Page σ) Unit := do
  if ← Run.look fun p => p.isReadOnly path then
    Run.fail (.notAssignable path.text "computed properties and methods are read-only")
  else
    let _ ← write run depth path x
    pure ()

/-- The scope of a name. -/
def scope : ScopeName → Scope (Page σ)
  | .page => { names run .page with assign := assign run depth }
  | .plain name => plainScope name

/-- The value of an expression text. -/
def evaluate (source : String) (scope : ScopeName) : Run (Page σ) Value := do
  let e ← Run.ofExcept (Expression.read source)
  e.evaluate (names run scope)

/-- A write to what an expression text names. -/
def set (source : String) (x : Value) : Run (Page σ) Unit := do
  let e ← Run.ofExcept (Expression.read source)
  e.assign (scope run depth .page) x

/-- The cascade of the node that an expression text names, if there is one; without a text, every
node once. -/
def refresh : Option String → Run (Page σ) Unit
  | none => (cascade run).notifyEvery
  | some source => do
    match ← Run.look fun p => p.graph.locate source with
    | none => pure ()
    | some id => (cascade run).notifyAll depth id

/-- Nodes for the members that the node of an expression text has now; the number of new nodes. -/
def grow (source : String) : Run (Page σ) Nat := do
  match ← Run.look fun p => p.graph.locate source with
  | none => Run.fail (.pathNotFound source)
  | some id => do
    let property ← Run.ofExcept (← Run.look fun p => p.graph.property id)
    let data ← Run.look fun p => p.data
    let before ← Run.look fun p => p.graph.size
    match property.source with
    | .computed _ => pure ()
    | .root => onGraph fun g => g.settle (g.grow data Graph.root [])
    | .data path =>
      match data.at? path with
      | none => pure ()
      | some v => onGraph fun g => g.settle (g.grow v id path)
    let after ← Run.look fun p => p.graph.size
    pure (after - before)

end ReactiveView.Page
