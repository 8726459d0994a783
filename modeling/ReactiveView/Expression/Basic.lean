import ReactiveView.Path
/-!
# Binding expressions

An expression names a property by its head, leads on from there by members, and may end in a call.
-/
namespace ReactiveView

/-- A binding expression: the text it was read from, the top-level name, the members that follow,
and whether a call ends it. -/
structure Expression where
  source : String
  head : String
  tail : List Segment
  isCall : Bool
  deriving DecidableEq, Repr

namespace Expression

/-- The name of the root of the observable graph. -/
def rootName : String := "$root"

/-- The path of an expression, from the root of the data. -/
def path (e : Expression) : Path := .field e.head :: e.tail

/-- Whether an expression is the bare name of the root. -/
def isRoot (e : Expression) : Bool := !e.isCall && e.tail.isEmpty && e.head == rootName

end Expression

end ReactiveView
