/-!
# Errors

Every cause for which an operation on values, expressions, markup, surfaces, graphs or pages can
fail, and its wording. Offsets are counted in bytes; nodes are named by their numbers.
-/
namespace ReactiveView

/-- Why an operation failed. -/
inductive Error where
  /-- A text does not follow its grammar. -/
  | parse (expression message : String) (position : Nat)
  /-- A repeat is not of the form `item in collection`. -/
  | malformedRepeat (expression : String)
  /-- Something that is no method was called. -/
  | notCallable (expression : String)
  /-- Something that cannot be written was assigned to. -/
  | notAssignable (expression reason : String)
  /-- A step of a path leads nowhere. -/
  | pathNotFound (path : String)
  /-- The graph has no node of this number. -/
  | nodeNotFound (id : Nat)
  /-- A node would become its own ancestor. -/
  | cyclicLink (parent child : Nat)
  /-- The surface has no node of this number. -/
  | surfaceNodeNotFound (node : Nat)
  /-- No element of the surface matches. -/
  | selectorNotFound (selector : String)
  /-- A markup text or an edit of a surface is not well formed. -/
  | markup (message : String) (position : Nat)
  /-- The handler of a directive refused. -/
  | handler (directive message : String)
  /-- A program given by the page's author refused. -/
  | callback (message : String)
  deriving DecidableEq, Repr

namespace Error

/-- The wording of an error. -/
def message : Error → String
  | .parse expression message position =>
    "Error while parsing expression '" ++ expression ++ "' at " ++ toString position ++ ": " ++
      message
  | .malformedRepeat expression => "Error while parsing repeat expression: " ++ expression
  | .notCallable expression => "Expression is not callable: " ++ expression
  | .notAssignable expression reason => "Cannot assign to " ++ expression ++ ": " ++ reason
  | .pathNotFound path => "Path not found: " ++ path
  | .nodeNotFound id => "Observable node not found: " ++ toString id
  | .cyclicLink parent child =>
    "Linking node " ++ toString child ++ " under node " ++ toString parent ++
      " would create a cycle"
  | .surfaceNodeNotFound node => "Surface node not found: " ++ toString node
  | .selectorNotFound selector => "No surface node matches selector: " ++ selector
  | .markup message position => "Invalid markup at " ++ toString position ++ ": " ++ message
  | .handler directive message => "Directive " ++ directive ++ " failed: " ++ message
  | .callback message => "Callback failed: " ++ message

end Error

/-- A result that is there, found by deciding on it. -/
theorem eq_ok_of_toOption {ε α : Type} {r : Except ε α} {a : α} (h : r.toOption = some a) :
    r = .ok a := by
  cases r with
  | ok b =>
    cases h
    rfl
  | error e => cases h

/-- The error of a result that is not there. -/
def errorOf? {ε α : Type} : Except ε α → Option ε
  | .ok _ => none
  | .error e => some e

/-- A failure, found by deciding on it. -/
theorem eq_error_of_errorOf? {ε α : Type} {r : Except ε α} {e : ε} (h : errorOf? r = some e) :
    r = .error e := by
  cases r with
  | ok b => cases h
  | error e =>
    cases h
    rfl

theorem map_eq_ok {ε α β : Type} {r : Except ε α} {g : α → β} {b : β} (h : r.map g = .ok b) :
    ∃ a, r = .ok a ∧ g a = b := by
  cases r with
  | ok a =>
    cases h
    exact ⟨a, rfl, rfl⟩
  | error e => cases h

theorem map_eq_error {ε α β : Type} {r : Except ε α} {g : α → β} {e : ε}
    (h : r.map g = .error e) : r = .error e := by
  cases r with
  | ok a => cases h
  | error e =>
    cases h
    rfl

end ReactiveView
