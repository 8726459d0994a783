import ReactiveView.Text.Blank
import ReactiveView.Text.Numeral
/-!
# Character references

Markup writes some characters as references, `&name;` or `&#number;`. Reading a text replaces every
reference that it knows and leaves all else as it stands; writing a text escapes the characters
that markup would take for its own.

Results:
* `escapeText_append`, `escapeAttribute_append`: escapes go character by character.
-/
namespace ReactiveView.Markup

open Text

/-- The references by name. -/
def named : List (String × Char) :=
  [("amp", '&'), ("lt", '<'), ("gt", '>'), ("quot", '"'), ("apos", '\''), ("nbsp", '\u00a0')]

/-- The numbers of references are 32 bits wide. -/
def codeLimit : Nat := Nat.pow 2 32

/-- The character of a code point, if it is one. -/
def codePoint? (n : Nat) : Option Char := if n.isValidChar then some (Char.ofNat n) else none

/-- The character that the part of a reference between `&` and `;` stands for. -/
def referent? (name : List Char) : Option Char :=
  match named.lookup (String.ofList name) with
  | some c => some c
  | none =>
    match name with
    | '#' :: 'x' :: hex => (numeral 16 codeLimit hex).bind codePoint?
    | '#' :: 'X' :: hex => (numeral 16 codeLimit hex).bind codePoint?
    | '#' :: number => (numeral 10 codeLimit number).bind codePoint?
    | _ => none

/-- The characters at which the search for the end of a reference stops. -/
def endsReference (c : Char) : Bool := c == ';' || c == '&'

/-- The character of the reference whose text follows an `&`, and what follows the reference. The
part before the `;` of a reference holds no `&`, so the search ends at the next one. -/
def reference? (cs : List Char) : Option (Char × List Char) :=
  match cs.dropWhile fun c => !endsReference c with
  | ';' :: rest => (referent? (cs.takeWhile fun c => !endsReference c)).map fun c => (c, rest)
  | _ => none

theorem length_lt_of_reference? {cs rest : List Char} {c : Char}
    (h : reference? cs = some (c, rest)) : rest.length < cs.length := by
  have hle := length_dropWhile_le (fun c => !endsReference c) cs
  unfold reference? at h
  split at h
  · next more heq =>
    obtain ⟨d, _, hd⟩ := Option.map_eq_some_iff.mp h
    cases hd
    rw [heq, List.length_cons] at hle
    omega
  · cases h

/-- The text with its references replaced. -/
def decode : List Char → List Char
  | [] => []
  | c :: cs =>
    if c = '&' then
      match h : reference? cs with
      | some (d, rest) =>
        have : rest.length < cs.length := length_lt_of_reference? h
        d :: decode rest
      | none => c :: decode cs
    else c :: decode cs
termination_by cs => cs.length

/-- A character of a text, escaped. -/
def escapeTextChar (c : Char) : List Char :=
  if c = '&' then "&amp;".toList
  else if c = '<' then "&lt;".toList
  else if c = '>' then "&gt;".toList
  else [c]

/-- A character of an attribute value in double quotes, escaped. -/
def escapeAttributeChar (c : Char) : List Char :=
  if c = '&' then "&amp;".toList
  else if c = '"' then "&quot;".toList
  else [c]

/-- A text, escaped. -/
def escapeText (cs : List Char) : List Char := cs.flatMap escapeTextChar

/-- An attribute value, escaped. -/
def escapeAttribute (cs : List Char) : List Char := cs.flatMap escapeAttributeChar

theorem escapeText_append (cs ds : List Char) :
    escapeText (cs ++ ds) = escapeText cs ++ escapeText ds := by simp [escapeText]

theorem escapeAttribute_append (cs ds : List Char) :
    escapeAttribute (cs ++ ds) = escapeAttribute cs ++ escapeAttribute ds := by
  simp [escapeAttribute]

end ReactiveView.Markup
