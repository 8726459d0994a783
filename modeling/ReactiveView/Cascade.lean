import ReactiveView.Graph.Basic
import ReactiveView.Run
/-!
# Cascades

To notify a node is to call its observers in order with its current value and the value that the
last write replaced; a node that was never written passes its current value for both. The cascade
of a write notifies everything below the node, then the node, then everything above it up to the
root.

An observer may do anything to the state, the graph included. So every step reads the graph anew;
only the list of observers of the node that is being notified, and the list of children that is
being walked, are fixed when their turn begins. The first failure ends it all. Since observers may
make the graph deeper while it is walked, the walks are given a depth.
-/
namespace ReactiveView

/-- What a cascade needs to know of the state that keeps the graph. -/
structure Cascade (S ω : Type) where
  /-- The graph in the state. -/
  graph : S → Graph ω
  /-- The current value of a source. -/
  value : Source → Run S Value
  /-- The call of an observer with the current and the previous value. -/
  call : ω → Value → Value → Run S Unit

namespace Cascade

variable {S ω : Type} (c : Cascade S ω)

/-- The observers of a node, called in order. Without observers the value is not read. -/
def notify (id : Nat) : Run S Unit := do
  let p ← Run.ofExcept (← Run.look fun s => (c.graph s).property id)
  if p.observers.isEmpty then pure ()
  else
    let current ← c.value p.source
    p.observers.forM fun o => c.call o current (p.previous.getD current)

/-- Everything below a node, each child before its own children. -/
def notifyBelow : (depth : Nat) → (id : Nat) → Run S Unit
  | 0, _ => Run.exhausted
  | depth + 1, id => do
    let children ← Run.ofExcept (← Run.look fun s => (c.graph s).children id)
    children.forM fun child => do
      c.notify child
      notifyBelow depth child

/-- Everything above a node, the nearest first. -/
def notifyAbove : (depth : Nat) → (id : Nat) → Run S Unit
  | 0, _ => Run.exhausted
  | depth + 1, id => do
    match ← Run.ofExcept (← Run.look fun s => (c.graph s).parent id) with
    | none => pure ()
    | some p => do
      c.notify p
      notifyAbove depth p

/-- The cascade of a write: what is below the node, the node, what is above it. -/
def notifyAll (depth : Nat) (id : Nat) : Run S Unit := do
  c.notifyBelow depth id
  c.notify id
  c.notifyAbove depth id

/-- Every node of the graph once, in the order of creation. -/
def notifyEvery : Run S Unit := do
  let ids ← Run.look fun s => (c.graph s).ids
  ids.forM c.notify

end Cascade

end ReactiveView
