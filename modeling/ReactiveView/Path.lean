import ReactiveView.Text.Numeral
/-!
# Data paths

A path leads from the root of a data tree to one of its members, a step at a time: by the name of a
field or by an index. Written out it has the form of an expression, such as `user.tags[0]`.
-/
namespace ReactiveView

/-- One step of a path. -/
inductive Segment where
  | field (name : String)
  | index (n : Nat)
  deriving DecidableEq, Repr

/-- A way from the root of a data tree, a segment for each step. -/
abbrev Path := List Segment

namespace Segment

/-- The key that a segment stands for in a record and in the graph: the name of a field, the
decimal numeral of an index. -/
def key : Segment → String
  | .field name => name
  | .index n => String.ofList (Text.decimal n)

/-- The element that a segment stands for in a list. A field stands for one if its name is a
numeral, however it is spelled. -/
def element? : Segment → Option Nat
  | .field name => Text.indexOf? name
  | .index n => some n

end Segment

namespace Path

/-- The text of the segments that follow the first: a point before each field, brackets around
each index. -/
def tailText : Path → List Char
  | [] => []
  | .field name :: rest => '.' :: name.toList ++ tailText rest
  | .index n :: rest => '[' :: Text.decimal n ++ ']' :: tailText rest

/-- The text of a path. A field at the front has no point before it. -/
def chars : Path → List Char
  | .field name :: rest => name.toList ++ tailText rest
  | path => tailText path

/-- The text of a path, as a string. -/
def text (p : Path) : String := String.ofList p.chars

end Path

end ReactiveView
