import ReactiveView.Error
import ReactiveView.Text.Blank
import ReactiveView.Text.Letter
import ReactiveView.Text.Reader
/-!
# Selectors

A selector is a single compound: an optional tag, or `*` for any, then any number of parts `#id`
and `.class`. Names are runs of letters, digits of any script, `-` and `_`. Of several ids the last
one counts; classes add up.

Blanks around a selector do not matter. A failure is placed within the text between them.
-/
namespace ReactiveView

/-- What an element has to be to match: its tag, its id, its classes. -/
structure Selector where
  tag : Option String
  id : Option String
  classes : List String
  deriving DecidableEq, Repr

namespace Selector

open Text

/-- The characters that names are made of. -/
def isNameChar (c : Char) : Bool := isAlphanumeric c || c == '-' || c == '_'

/-- The parts that follow the tag, added to a selector. -/
def readParts (s : Selector) (cs : List Char) : Except Failure Selector :=
  match cs with
  | [] => .ok s
  | c :: rest =>
    if c = '#' ∨ c = '.' then
      let name := String.ofList (rest.takeWhile isNameChar)
      if name.isEmpty then .error ⟨"Expected name", rest⟩
      else if c = '#' then readParts { s with id := some name } (rest.dropWhile isNameChar)
      else readParts { s with classes := s.classes ++ [name] } (rest.dropWhile isNameChar)
    else .error ⟨"Unexpected character '" ++ c.toString ++ "'", c :: rest⟩
termination_by cs.length
decreasing_by all_goals exact Nat.lt_succ_of_le (length_dropWhile_le _ _)

/-- The selector that a text without blanks around it spells. -/
def readTrimmed (cs : List Char) : Except Failure Selector :=
  match cs with
  | [] => .error ⟨"Empty selector", []⟩
  | c :: rest =>
    if c = '*' then readParts ⟨none, none, []⟩ rest
    else if isNameChar c then
      let name := lowered (String.ofList (c :: rest.takeWhile isNameChar))
      readParts ⟨some name, none, []⟩ (rest.dropWhile isNameChar)
    else readParts ⟨none, none, []⟩ cs

/-- The selector that a text spells. An error carries the text as it was given. -/
def read (source : String) : Except Error Selector :=
  let cs := trim source.toList
  match readTrimmed cs with
  | .error f => .error (.parse source f.message (f.offset cs))
  | .ok s => .ok s

/-- The text of a selector: the tag or `*`, the id, the classes. -/
def text (s : Selector) : String :=
  s.tag.getD "*" ++ (s.id.elim "" ("#" ++ ·)) ++ String.join (s.classes.map ("." ++ ·))

/-- Whether an element matches, given its tag and its attributes. -/
def isMatch (s : Selector) (tag : String) (attribute? : String → Option String) : Bool :=
  s.tag.all (fun t => sameIgnoringCase t tag) &&
    s.id.all (fun i => attribute? "id" == some i) &&
    s.classes.all fun c => (words ((attribute? "class").getD "").toList).contains c.toList

end Selector

end ReactiveView
