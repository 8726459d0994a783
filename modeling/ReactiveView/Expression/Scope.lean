import ReactiveView.Expression.Reader
import ReactiveView.Run
import ReactiveView.Value.Basic
/-!
# Evaluation

What an expression is evaluated against are names: a name can be looked up or invoked, as a run on
some state. A scope also takes writes. What an expression finds absent is null, and only top-level
names can be called.

A plain scope is a data tree by itself. It has no methods.
-/
namespace ReactiveView

/-- What expressions are read from and called in. -/
structure Names (S : Type) where
  /-- The value of a top-level name, if there is one of this name. -/
  lookup : String → Run S (Option Value)
  /-- The answer of a top-level method. -/
  invoke : String → Run S Value

/-- What expressions are read from, called in and assigned to. -/
structure Scope (S : Type) extends Names S where
  /-- A write at a path that starts with a top-level name. -/
  assign : Path → Value → Run S Unit

namespace Scope

variable {S T : Type}

/-- The scope of a state that keeps the scope's own state as a part. -/
def onPart (get : S → T) (put : T → S → S) (scope : Scope T) : Scope S where
  lookup name := (scope.lookup name).onPart get put
  invoke name := (scope.invoke name).onPart get put
  assign path x := (scope.assign path x).onPart get put

/-- A data tree as a scope. -/
def plain : Scope Value where
  lookup name := Run.look fun data => data.field? name
  invoke name := Run.fail (.notCallable name)
  assign path x := Run.edit id (fun data _ => data) fun data =>
    match data.set path x with
    | .ok (_, data') => (.ok (), data')
    | .error e => (.error e, data)

end Scope

namespace Expression

variable {S : Type}

/-- The value of an expression. -/
def evaluate (names : Names S) (e : Expression) : Run S Value :=
  if e.isCall then
    if e.tail.isEmpty then names.invoke e.head else Run.fail (.notCallable e.source)
  else do
    match ← names.lookup e.head with
    | none => pure .null
    | some v => pure ((v.at? e.tail).getD .null)

/-- A write to what an expression names. -/
def assign (scope : Scope S) (e : Expression) (x : Value) : Run S Unit := do
  let path ← Run.ofExcept e.target
  scope.assign path x

end Expression

end ReactiveView
