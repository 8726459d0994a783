import ReactiveView.Page.Access
/-!
# Bindings and events

A binding renders the value of an expression into a node at once. Unless the expression is a call,
it renders again whenever the node of the graph that the expression names is notified, if there is
one; and a two-way binding then also writes the node's text back on an event.

An event runs the listeners of its node in order. One that comes with a value stores it in the
node's `value` attribute first, as typing into the node would.
-/
namespace ReactiveView.Page

variable {σ : Type} (run : Program σ → Run (Page σ) Value) (depth : Nat)

/-- A binding of an expression text to a node. -/
def bind (node : Nat) (source : String) (request : BindingRequest) : Run (Page σ) Unit := do
  let source := Text.trimmed source
  let e ← Run.ofExcept (Expression.read source)
  let b : Binding := ⟨node, request.target, e, request.scope⟩
  render run b
  if e.isCall then pure ()
  else
    match ← Run.look fun p => p.graph.locate source with
    | none => pure ()
    | some id => do
      onGraph fun g => g.settle (g.observe id (.binding b))
      if request.twoWay then
        onSurface fun s => s.settle
          (s.listen node (request.event.getD Event.default)
            (.writeBack request.target e request.scope))
      else pure ()

/-- The call of a listener. -/
def callListener (event : Event) : Listener σ → Run (Page σ) Unit
  | .writeBack target e scopeName => do
    if ← Run.look fun p => p.live then
      let text ← readTarget event.target target
      e.assign (scope run depth scopeName) (.text text)
    else pure ()
  | .script f => do
    let _ ← run (f event)
    pure ()

/-- An event on a node. -/
def dispatch (node : Nat) (event : String) (value : Option String) : Run (Page σ) Unit := do
  match value with
  | none => pure ()
  | some v => editSurface (.setAttribute node "value" v)
  let listeners ← askSurface fun s => s.listeners node event
  listeners.forM (callListener run depth ⟨event, node⟩)

end ReactiveView.Page
