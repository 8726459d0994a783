import ReactiveView.Expression.Scope
import ReactiveView.Page.Program
/-!
# Pages

A page keeps a surface, a data tree and the observable graph of the data, together with what its
author supplied: methods, computed properties, directives, and plain data trees beside the data.

The observers on the graph are bindings, which render a value into the surface, and watchers. The
listeners on the surface write a value back into the data, or are scripts. Once the page is closed,
nothing is written back any more.
-/
namespace ReactiveView

/-- A node of the surface that shows the value of an expression. -/
structure Binding where
  node : Nat
  target : Target
  expression : Expression
  scope : ScopeName
  deriving DecidableEq, Repr

/-- What hears of a node of the graph. -/
inductive Observer (σ : Type) where
  | binding (b : Binding)
  | watcher (w : Value → Value → Program σ)

/-- What hears of an event on a node of the surface. -/
inductive Listener (σ : Type) where
  | writeBack (target : Target) (expression : Expression) (scope : ScopeName)
  | script (f : Event → Program σ)

/-- What a directive does with the element that carries it. A program that ends with `false` has
taken care of what is below the element. -/
inductive Handler (σ : Type) where
  /-- A copy of the element for each member of a collection. -/
  | repeated
  /-- A two-way binding of the element's value. -/
  | model
  | custom (f : Nat → String → Program σ)

/-- Directives in the order in which they are tried, by attribute name. -/
abbrev Registry (σ : Type) := Entries (Handler σ)

namespace Registry

variable {σ : Type}

/-- The name of the directive that repeats elements. -/
def repeatName : String := "vm-repeat"

/-- The name of the directive that binds a value both ways. -/
def modelName : String := "vm-model"

/-- A directive more. Names are kept in lower case; a name that is there keeps its place. -/
def register (r : Registry σ) (name : String) (h : Handler σ) : Registry σ :=
  r.insert (Text.lowered name) h

/-- The two directives that every page can use. -/
def withBuiltins (r : Registry σ) : Registry σ :=
  (r.register repeatName .repeated).register modelName .model

end Registry

/-- A page, with a host state for its programs. -/
structure Page (σ : Type) where
  surface : Surface (Listener σ)
  data : Value
  graph : Graph (Observer σ)
  methods : String → Option (Program σ)
  computed : String → Option (Program σ)
  registry : Registry σ
  scopes : Entries Value
  live : Bool
  host : σ

namespace Page

variable {σ : Type}

/-- What a program sees of a page. -/
def view (p : Page σ) : View σ := ⟨p.data, p.graph.outline, p.surface.outline, p.host⟩

/-- A run on the surface of a page. -/
def onSurface {α : Type} (f : Surface (Listener σ) → Except Error α × Surface (Listener σ)) :
    Run (Page σ) α :=
  Run.edit Page.surface (fun s p => { p with surface := s }) f

/-- A run on the graph of a page. -/
def onGraph {α : Type} (f : Graph (Observer σ) → Except Error α × Graph (Observer σ)) :
    Run (Page σ) α :=
  Run.edit Page.graph (fun g p => { p with graph := g }) f

/-- A question to the surface of a page. -/
def askSurface {α : Type} (f : Surface (Listener σ) → Except Error α) : Run (Page σ) α := do
  Run.ofExcept (← Run.look fun p => f p.surface)

/-- An edit of the surface of a page. -/
def editSurface (e : Surface.Edit) : Run (Page σ) e.Reply := onSurface fun s => s.apply e

/-- A plain data tree of a page as a scope; writes to one that is not there are lost. -/
def plainScope (name : String) : Scope (Page σ) :=
  Scope.plain.onPart (fun p => (p.scopes.get? name).getD .null)
    fun v p => { p with scopes := p.scopes.modify (fun _ => v) name }

end Page

end ReactiveView
