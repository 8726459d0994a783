import ReactiveView.Text.Blank
import ReactiveView.Text.Reader
/-!
# Interpolations

Content of the form `{{ expression }}` is an interpolation of the expression. It has to
be the whole content, blanks apart: a second pair of braces or text beside them makes it ordinary
content.
-/
namespace ReactiveView.Template

open Text

/-- The mark that opens an interpolation. -/
def openMark : List Char := ['\x7b', '\x7b']

/-- The mark that closes an interpolation. -/
def closeMark : List Char := ['\x7d', '\x7d']

/-- The text between a leading and a trailing mark that do not overlap. -/
def between? (front back cs : List Char) : Option (List Char) :=
  if front.isPrefixOf cs then
    let inner := cs.drop front.length
    if back.isSuffixOf inner then some (inner.take (inner.length - back.length)) else none
  else none

/-- The expression text of a content that is an interpolation. -/
def interpolated? (content : List Char) : Option (List Char) :=
  match between? openMark closeMark (trim content) with
  | none => none
  | some inner =>
    if occurs openMark inner || occurs closeMark inner then none
    else
      let expression := trim inner
      if expression.isEmpty then none else some expression

/-- The expression text of a content that is an interpolation, as strings. -/
def interpolation? (content : String) : Option String :=
  (interpolated? content.toList).map String.ofList

end ReactiveView.Template
