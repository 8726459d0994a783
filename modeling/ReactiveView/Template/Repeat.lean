import ReactiveView.Expression.Reader
import ReactiveView.Value.Basic
/-!
# Repeats

The text of a repeat is `item in collection`: a name, the word `in` between blanks, and an
expression that is no call. Each member of the collection has an accessor, which is the text of the
collection with the member's index or quoted key in brackets.
-/
namespace ReactiveView.Template

open Text

/-- The text before and after the first blank. -/
def splitBlank (cs : List Char) : Option (List Char × List Char) :=
  match cs.dropWhile fun c => !isBlank c with
  | [] => none
  | _ :: after => some (cs.takeWhile fun c => !isBlank c, after)

/-- What follows the word `in` and at least one blank, without the blanks around it. -/
def afterIn (cs : List Char) : Option (List Char) :=
  match skipBlank cs with
  | 'i' :: 'n' :: c :: rest => if isBlank c then some (trim (c :: rest)) else none
  | _ => none

/-- Whether a text is a bare name. -/
def isItem (s : String) : Bool :=
  match Expression.read s with
  | .ok e => !e.isCall && e.tail.isEmpty
  | .error _ => false

/-- Whether a text is an expression that is no call. -/
def isCollection (s : String) : Bool :=
  match Expression.read s with
  | .ok e => !e.isCall
  | .error _ => false

/-- The item and the collection of the text of a repeat. -/
def repeat? (source : String) : Option (String × String) := do
  let (item, rest) ← splitBlank (trim source.toList)
  let collection ← afterIn rest
  let item := String.ofList item
  let collection := String.ofList collection
  if isItem item && isCollection collection then some (item, collection) else none

/-- The item and the collection of the text of a repeat, or the refusal of the text. -/
def readRepeat (source : String) : Except Error (String × String) :=
  match repeat? source with
  | some parts => .ok parts
  | none => .error (.malformedRepeat source)

/-- A key in single quotes, with a backslash before every quote and backslash. -/
def quoteKey (key : List Char) : List Char :=
  '\'' :: key.flatMap (fun c => if c = '\\' ∨ c = '\'' then ['\\', c] else [c]) ++ ['\'']

/-- The accessor of a member. -/
def accessor (collection : List Char) : Segment → List Char
  | .index n => collection ++ '[' :: decimal n ++ [']']
  | .field key => collection ++ '[' :: quoteKey key.toList ++ [']']

/-- The accessors of the members of a collection, in order. -/
def accessors (collection : String) (v : Value) : List (List Char) :=
  v.members.map fun m => accessor collection.toList m.1

end ReactiveView.Template
