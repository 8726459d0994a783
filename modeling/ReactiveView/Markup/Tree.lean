import ReactiveView.Error
import ReactiveView.Markup.Token
/-!
# Markup as trees

`read` builds the fragments that a markup text stands for from its tokens; `write` is the text of
fragments in its one canonical form.

Tags must nest: a closing tag closes the innermost open element, and none may be open at the end.
Void elements are never open.

Trees can be deep, so a piece is written straight in front of what comes after it, and no text is
copied from level to level.

Results:
* `writeOne_append`, `writeAll_append`: what comes after a piece does not change its text.
* `writeAll_eq_flatMap`: the text of fragments is the texts of each, joined.
-/
namespace ReactiveView.Markup

open Text

/-- An element that waits for its closing tag, with its children so far, the newest first. -/
structure Open where
  tag : String
  attributes : Entries String
  children : List Fragment

/-- The trees built so far: the open elements, the innermost first, and what is complete, the newest
first. -/
structure Builder where
  opened : List Open
  complete : List Fragment

namespace Builder

/-- Nothing is built yet. -/
def empty : Builder := ⟨[], []⟩

/-- A complete piece goes into the innermost open element. -/
def add (b : Builder) (f : Fragment) : Builder :=
  match b.opened with
  | [] => { b with complete := f :: b.complete }
  | o :: outer => { b with opened := { o with children := f :: o.children } :: outer }

/-- What a token does to the trees, or why it cannot stand here. -/
def feed (b : Builder) : Token → Except String Builder
  | .declaration => .ok b
  | .text s => .ok (b.add (.text s))
  | .comment s => .ok (b.add (.comment s))
  | .opening tag attributes closed =>
    if closed || Fragment.isVoid tag then .ok (b.add (.element tag attributes []))
    else .ok { b with opened := ⟨tag, attributes, []⟩ :: b.opened }
  | .closing tag =>
    match b.opened with
    | [] => .error ("Unexpected </" ++ tag ++ ">")
    | o :: outer =>
      if o.tag = tag then
        .ok (add { b with opened := outer } (.element o.tag o.attributes o.children.reverse))
      else .error ("Expected </" ++ o.tag ++ ">, found </" ++ tag ++ ">")

/-- The trees at the end of a text. -/
def finish (b : Builder) : Except String (List Fragment) :=
  match b.opened with
  | [] => .ok b.complete.reverse
  | o :: _ => .error ("Unclosed element <" ++ o.tag ++ ">")

end Builder

/-- The trees that a text adds to those built so far. -/
def readFrom (b : Builder) (cs : List Char) : Except Failure (List Fragment) :=
  match cs with
  | [] =>
    match b.finish with
    | .error message => .error ⟨message, []⟩
    | .ok fragments => .ok fragments
  | c :: rest =>
    match h : readToken c rest with
    | .error f => .error f
    | .ok (token, after) =>
      match b.feed token with
      | .error message => .error ⟨message, c :: rest⟩
      | .ok b' =>
        have : after.length < (c :: rest).length := by
          have := length_le_of_readToken h
          simp only [List.length_cons]
          omega
        readFrom b' after
termination_by cs.length
decreasing_by all_goals assumption

/-- The fragments that a markup text stands for. -/
def read (source : String) : Except Error (List Fragment) :=
  let cs := source.toList
  match readFrom .empty cs with
  | .error f => .error (.markup f.message (f.offset cs))
  | .ok fragments => .ok fragments

mutual

/-- The canonical text of a fragment, in front of what comes after it. What a void element holds is
not written. -/
def writeOne : Fragment → List Char → List Char
  | .text s, after => (Token.text s).write ++ after
  | .comment s, after => (Token.comment s).write ++ after
  | .element tag attributes children, after =>
    (Token.opening tag attributes false).write ++
      if Fragment.isVoid tag then after
      else writeAll children ((Token.closing tag).write ++ after)

/-- The canonical text of fragments in a row, in front of what comes after them. -/
def writeAll : List Fragment → List Char → List Char
  | [], after => after
  | f :: rest, after => writeOne f (writeAll rest after)

end

/-- The canonical text of fragments. -/
def write (fragments : List Fragment) : String := String.ofList (writeAll fragments [])

mutual

theorem writeOne_append (f : Fragment) (cs ds : List Char) :
    writeOne f (cs ++ ds) = writeOne f cs ++ ds := by
  cases f with
  | text s => simp [writeOne]
  | comment s => simp [writeOne]
  | element tag attributes children =>
    simp only [writeOne, List.append_assoc]
    split
    · rfl
    · rw [← List.append_assoc, writeAll_append]

theorem writeAll_append (fs : List Fragment) (cs ds : List Char) :
    writeAll fs (cs ++ ds) = writeAll fs cs ++ ds := by
  cases fs with
  | nil => rfl
  | cons f rest => simp only [writeAll]; rw [writeAll_append rest, writeOne_append f]

end

/-- The text of fragments is that of each one, in order. -/
theorem writeAll_eq_flatMap (fs : List Fragment) :
    writeAll fs [] = fs.flatMap fun f => writeOne f [] := by
  induction fs with
  | nil => rfl
  | cons f rest ih => rw [List.flatMap_cons, ← ih, ← writeOne_append]; rfl

end ReactiveView.Markup
