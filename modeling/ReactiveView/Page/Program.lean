import ReactiveView.Expression.Basic
import ReactiveView.Graph.Growth
import ReactiveView.Graph.Locate
import ReactiveView.Surface.Edit
/-!
# Programs

What the author of a page may supply as methods, computed properties, watchers, directive handlers
and listeners are programs. A program is a tree: it ends with a value or an error, or it gives a
command and goes on with the answer. It sees the page except for the programs of others, and it may
keep things of its own in a host state of any type.

Commands name every operation of a page, so a statement over all programs covers whatever an author
may do.
-/
namespace ReactiveView

/-- Whose names an expression is read against: the page's, or those of a plain data tree by name. -/
inductive ScopeName where
  | page
  | plain (name : String)
  deriving DecidableEq, Repr

/-- The part of a node that a binding writes: its text, or an attribute. -/
inductive Target where
  | content
  | attributeNamed (name : String)
  deriving DecidableEq, Repr

/-- Where a page is compiled: at the first match of a selector, or at a node. -/
inductive Mount where
  | selector (source : String)
  | node (i : Nat)
  deriving DecidableEq, Repr

/-- What a listener hears of: the name of the event, and the node on which it was dispatched. -/
structure Event where
  name : String
  target : Nat
  deriving DecidableEq, Repr

/-- The event of two-way bindings that name none. -/
def Event.default : String := "input"

/-- What is asked of a binding: the part it writes, the event it listens to if it is two-way, and
the names it is read against. -/
structure BindingRequest where
  target : Target
  event : Option String
  twoWay : Bool
  scope : ScopeName
  deriving DecidableEq, Repr

/-- An operation of a page. -/
inductive Command where
  /-- An edit of the surface. -/
  | surface (e : Surface.Edit)
  /-- An event, with the value that the node has then. -/
  | dispatch (node : Nat) (event : String) (value : Option String)
  /-- A change of the graph. -/
  | graph (e : Graph.Edit)
  /-- The observers of a node. -/
  | notify (id : Nat)
  /-- The observers of all nodes below a node. -/
  | notifyBelow (id : Nat)
  /-- The observers of all nodes above a node. -/
  | notifyAbove (id : Nat)
  /-- The cascade of a node. -/
  | notifyAll (id : Nat)
  /-- The observers of every node. -/
  | notifyEvery
  /-- A write to the data, and the cascade of the node written. -/
  | write (path : Path) (value : Value)
  /-- The current value of a source. -/
  | valueOf (source : Source)
  /-- The value of a top-level name. -/
  | lookup (name : String)
  /-- A call of a method. -/
  | invoke (name : String)
  /-- A write that respects what is read-only. -/
  | assign (path : Path) (value : Value)
  /-- The value of an expression. -/
  | evaluate (source : String) (scope : ScopeName)
  /-- A write to what an expression names. -/
  | set (source : String) (value : Value)
  /-- The cascade of the node that an expression names; without one, every node. -/
  | refresh (source : Option String)
  /-- Nodes for the members that what an expression names has now. -/
  | grow (source : String)
  /-- A binding of an expression to a node of the surface. -/
  | bind (node : Nat) (source : String) (request : BindingRequest)
  /-- The compilation of a part of the surface. -/
  | compile (mount : Mount)
  /-- The handler of a directive, by the directive's name. -/
  | handle (directive : String) (node : Nat) (source : String)

/-- What a command answers when it does not fail. -/
abbrev Command.Reply : Command → Type
  | .surface e => e.Reply
  | .graph e => e.Reply
  /- The node whose cascade ran. -/
  | .write .. => Option Nat
  | .valueOf _ | .invoke _ | .evaluate .. => Value
  | .lookup _ => Option Value
  /- The number of new nodes. -/
  | .grow _ => Nat
  /- Whether the handler has taken care of the subtree; none without the directive. -/
  | .handle .. => Option Bool
  | _ => Unit

/-- What a program sees of a page. -/
structure View (σ : Type) where
  data : Value
  graph : Graph Unit
  surface : Surface Unit
  host : σ

/-- A program on pages whose host state is a `σ`. -/
inductive Program (σ : Type) where
  /-- It ends with a value. -/
  | done (value : Value)
  /-- It fails. -/
  | fail (error : Error)
  /-- It looks at the page. -/
  | look (next : View σ → Program σ)
  /-- It changes the host state. -/
  | update (change : σ → σ) (next : Program σ)
  /-- It gives a command, and may go on after a failure. -/
  | act (command : Command) (next : Except Error command.Reply → Program σ)
  /-- It adds an observer to a node of the graph. -/
  | observe (id : Nat) (watcher : Value → Value → Program σ)
      (next : Except Error Unit → Program σ)
  /-- It puts a listener on a node of the surface. -/
  | listen (node : Nat) (event : String) (listener : Event → Program σ)
      (next : Except Error Unit → Program σ)

namespace Program

variable {σ : Type}

/-- One program after another, with the result of the first, be it a failure. -/
def attempt : Program σ → (Except Error Value → Program σ) → Program σ
  | .done v, f => f (.ok v)
  | .fail e, f => f (.error e)
  | .look next, f => .look fun view => (next view).attempt f
  | .update change next, f => .update change (next.attempt f)
  | .act c next, f => .act c fun r => (next r).attempt f
  | .observe id watcher next, f => .observe id watcher fun r => (next r).attempt f
  | .listen node event listener next, f =>
    .listen node event listener fun r => (next r).attempt f

/-- Goes on with an answer and fails with an error. -/
def orFail {α : Type} (f : α → Program σ) : Except Error α → Program σ
  | .ok a => f a
  | .error e => .fail e

/-- One program after another, with the value of the first. -/
def andThen (p : Program σ) (f : Value → Program σ) : Program σ := p.attempt (orFail f)

/-- A command whose failure is the program's. -/
def tell (c : Command) (f : c.Reply → Program σ) : Program σ := .act c (orFail f)

/-- The value of an expression. -/
def get (source : String) : Program σ := tell (.evaluate source .page) .done

/-- The values of programs that run one after the other. -/
def collect : List (Program σ) → (List Value → Program σ) → Program σ
  | [], f => f []
  | p :: rest, f => p.andThen fun v => collect rest fun vs => f (v :: vs)

/-- The value of the last of programs that run one after the other. -/
def sequence (ps : List (Program σ)) : Program σ :=
  collect ps fun vs => .done (vs.getLast?.getD .null)

/-- An observer added to the node that an expression names; whether there is one. -/
def watch (source : String) (watcher : Value → Value → Program σ) : Program σ :=
  .look fun view =>
    match view.graph.locate source with
    | none => .done (.bool false)
    | some id => .observe id watcher (orFail fun _ => .done (.bool true))

end Program

end ReactiveView
