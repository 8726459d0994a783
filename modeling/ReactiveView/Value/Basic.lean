import ReactiveView.Entries
import ReactiveView.Error
import ReactiveView.Number.Binary
import ReactiveView.Path
/-!
# Data values

The data behind a page: scalars, lists and records, nested at will. A record keeps its entries in
order. A path is followed with `at?` and written with `set`.

A write may create the last member of its path: any key of a record, and the index just past the
end of a list. Everything before the last step has to be there. A write that fails yields no data
at all, so it cannot have changed any.
-/
namespace ReactiveView

/-- A data value. -/
inductive Value where
  | null
  | bool (b : Bool)
  | number (n : Number)
  | text (s : String)
  | list (items : List Value)
  | record (entries : List (String × Value))

namespace Value

instance : Inhabited Value := ⟨.null⟩

/-- The name of a value's kind. -/
def kind : Value → String
  | .null => "null"
  | .bool _ => "boolean"
  | .number _ => "number"
  | .text _ => "string"
  | .list _ => "array"
  | .record _ => "object"

/-- Lists and records are the values that have members. -/
def isContainer : Value → Bool
  | .list _ | .record _ => true
  | _ => false

/-- The member at a key of a record. -/
def field? : Value → String → Option Value
  | .record entries, key => Entries.get? entries key
  | _, _ => none

/-- The member at an index of a list. -/
def element? : Value → Nat → Option Value
  | .list items, n => items[n]?
  | _, _ => none

/-- The member that a segment leads to. -/
def member? : Value → Segment → Option Value
  | .record entries, s => Entries.get? entries s.key
  | .list items, s => s.element?.bind fun n => items[n]?
  | _, _ => none

/-- The members in order, each with its segment. -/
def members : Value → List (Segment × Value)
  | .list items => items.mapIdx fun n v => (.index n, v)
  | .record entries => entries.map fun e => (.field e.1, e.2)
  | _ => []

/-- The value that a path leads to. -/
def at? : Value → Path → Option Value
  | v, [] => some v
  | v, s :: rest => (v.member? s).bind fun next => next.at? rest

/-- The value with another one in the place of a member that is there. -/
def replace : Value → Segment → Value → Value
  | .record entries, s, x => .record (Entries.insert entries s.key x)
  | .list items, s, x =>
    match s.element? with
    | some n => .list (items.set n x)
    | none => .list items
  | v, _, _ => v

/-- A write to a member: the value that was there, null if there was none, and the new whole.
The path is the one that led to the member, for the error. -/
def put (whole : Value) (s : Segment) (x : Value) (path : Path) : Except Error (Value × Value) :=
  match whole with
  | .record entries =>
    .ok ((Entries.get? entries s.key).getD .null, .record (Entries.insert entries s.key x))
  | .list items =>
    match s.element? with
    | some n =>
      if h : n < items.length then .ok (items[n], .list (items.set n x))
      else if n = items.length then .ok (.null, .list (items ++ [x]))
      else .error (.pathNotFound path.text)
    | none => .error (.pathNotFound path.text)
  | other => .error (.notAssignable path.text ("cannot set a member on " ++ other.kind))

/-- A write below a value that a path has led to. -/
def setFrom (before : Path) : Value → Path → Value → Except Error (Value × Value)
  | v, [], x => .ok (v, x)
  | v, [s], x => v.put s x (before ++ [s])
  | v, s :: rest, x =>
    match v.member? s with
    | none => .error (.pathNotFound (Path.text (before ++ [s])))
    | some next =>
      match setFrom (before ++ [s]) next rest x with
      | .error e => .error e
      | .ok (old, next') => .ok (old, v.replace s next')

/-- The value that a write at a path replaces, null if there was none, and the data after it. -/
def set (data : Value) (path : Path) (x : Value) : Except Error (Value × Value) :=
  setFrom [] data path x

end Value

end ReactiveView
