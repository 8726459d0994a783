import ReactiveView.Expression.Reader
import ReactiveView.Graph.Basic
/-!
# Nodes by expression

The node that an expression text names, for those who want to hear of it. A text that is no
expression, a call, and a path that leads to no node name none.
-/
namespace ReactiveView.Graph

variable {ω : Type}

/-- The node that an expression text names. -/
def locate (g : Graph ω) (source : String) : Option Nat :=
  let source := Text.trimmed source
  if source = Expression.rootName then some root
  else
    match Expression.read source with
    | .error _ => none
    | .ok e => if e.isCall then none else g.resolve e.path

end ReactiveView.Graph
