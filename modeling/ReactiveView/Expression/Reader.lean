import ReactiveView.Error
import ReactiveView.Expression.Basic
import ReactiveView.Text.Blank
import ReactiveView.Text.Letter
import ReactiveView.Text.Numeral
import ReactiveView.Text.Reader
/-!
# Reading expressions

An expression is a name, then any number of members `.name`, `[digits]` or `['text']`, then at most
one call `()`. Blanks may stand around every part. A name is a run of letters, digits of any
script, `_` and `$` that does not start with a basic digit; in a quoted text a backslash makes the
next character stand for itself.

Results:
* `length_lt_of_next`: every member that is read makes the text left shorter, so reading ends.
-/
namespace ReactiveView.Expression

open Text

/-- The characters that names are made of. -/
def isNameChar (c : Char) : Bool := isAlphanumeric c || c == '_' || c == '$'

/-- A name, after blanks. -/
def readName : Reader String := fun cs =>
  match skipBlank cs with
  | [] => .error ⟨"Expected identifier", []⟩
  | c :: rest =>
    if isDigit c then .error ⟨"Identifier cannot start with a digit", c :: rest⟩
    else if isNameChar c then
      .ok (String.ofList (c :: rest.takeWhile isNameChar), rest.dropWhile isNameChar)
    else .error ⟨"Expected identifier", c :: rest⟩

/-- A given mark, after blanks. -/
def expect (mark : Char) (cs : List Char) : Except Failure (List Char) :=
  match skipBlank cs with
  | [] => .error ⟨"Expected '" ++ mark.toString ++ "', found end of input", []⟩
  | c :: rest =>
    if c = mark then .ok rest
    else .error ⟨"Expected '" ++ mark.toString ++ "', found '" ++ c.toString ++ "'", c :: rest⟩

/-- The text up to a closing quote, and what follows the quote. -/
def quotedText (quote : Char) : List Char → Option (List Char × List Char)
  | [] => none
  | ['\\'] => none
  | '\\' :: c :: rest => (quotedText quote rest).map fun parts => (c :: parts.1, parts.2)
  | c :: rest =>
    if c = quote then some ([], rest)
    else (quotedText quote rest).map fun parts => (c :: parts.1, parts.2)

/-- The index or the quoted field inside brackets, from the first character that is not blank to
past the closing bracket. -/
def readBracket (cs : List Char) : Except Failure (Segment × List Char) :=
  match cs with
  | [] => .error ⟨"Invalid bracket expression", []⟩
  | c :: rest =>
    if c = '\'' ∨ c = '"' then
      match quotedText c rest with
      | none => .error ⟨"Unterminated string", rest⟩
      | some (text, rest') =>
        match expect ']' rest' with
        | .error f => .error f
        | .ok after => .ok (.field (String.ofList text), after)
    else if isDigit c then
      match numeral 10 indexLimit (c :: rest.takeWhile isDigit) with
      | none => .error ⟨"Invalid index", c :: rest⟩
      | some n =>
        match expect ']' (rest.dropWhile isDigit) with
        | .error f => .error f
        | .ok after => .ok (.index n, after)
    else .error ⟨"Invalid bracket expression", c :: rest⟩

/-- What can follow the part of an expression read so far. -/
inductive Next where
  | member (s : Segment) (rest : List Char)
  | finish (call : Bool)

/-- The next member, or the end. -/
def next (cs : List Char) : Except Failure Next :=
  match skipBlank cs with
  | [] => .ok (.finish false)
  | c :: rest =>
    if c = '.' then
      match readName rest with
      | .error f => .error f
      | .ok (name, after) => .ok (.member (.field name) after)
    else if c = '[' then
      match readBracket (skipBlank rest) with
      | .error f => .error f
      | .ok (s, after) => .ok (.member s after)
    else if c = '(' then
      match expect ')' rest with
      | .error f => .error f
      | .ok after =>
        match skipBlank after with
        | [] => .ok (.finish true)
        | d :: more => .error ⟨"Unexpected '" ++ d.toString ++ "' after call", d :: more⟩
    else .error ⟨"Unexpected '" ++ c.toString ++ "'", c :: rest⟩

theorem length_lt_of_readName {cs rest : List Char} {s : String}
    (h : readName cs = .ok (s, rest)) : rest.length < cs.length := by
  have hle := length_skipBlank_le cs
  unfold readName at h
  split at h
  · cases h
  · next c more heq =>
    have h1 := length_dropWhile_le isNameChar more
    rw [heq, List.length_cons] at hle
    split at h
    · cases h
    · split at h
      · cases h; omega
      · cases h

theorem length_lt_of_expect {mark : Char} {cs rest : List Char}
    (h : expect mark cs = .ok rest) : rest.length < cs.length := by
  have hle := length_skipBlank_le cs
  unfold expect at h
  split at h
  · cases h
  · next c more heq =>
    rw [heq, List.length_cons] at hle
    split at h <;> cases h
    omega

theorem length_lt_of_quotedText {quote : Char} {cs text rest : List Char}
    (h : quotedText quote cs = some (text, rest)) : rest.length < cs.length := by
  fun_induction quotedText quote cs generalizing text with
  | case1 => simp at h
  | case2 => simp at h
  | case3 c more ih =>
    obtain ⟨parts, hp, heq⟩ := Option.map_eq_some_iff.mp h
    cases heq
    have := ih hp
    simp only [List.length_cons]
    omega
  | case4 =>
    cases h
    simp
  | case5 c more _ _ _ ih =>
    obtain ⟨parts, hp, heq⟩ := Option.map_eq_some_iff.mp h
    cases heq
    have := ih hp
    simp only [List.length_cons]
    omega

theorem length_lt_of_readBracket {cs rest : List Char} {s : Segment}
    (h : readBracket cs = .ok (s, rest)) : rest.length < cs.length := by
  unfold readBracket at h
  split at h
  · cases h
  · next c more =>
    rw [List.length_cons]
    split at h
    · split at h
      · cases h
      · next text more' hq =>
        have h1 := length_lt_of_quotedText hq
        split at h
        · cases h
        · next after he =>
          have h2 := length_lt_of_expect he
          cases h; omega
    · split at h
      · split at h
        · cases h
        · split at h
          · cases h
          · next after he =>
            have h1 := length_dropWhile_le isDigit more
            have h2 := length_lt_of_expect he
            cases h; omega
      · cases h

theorem length_lt_of_next {cs rest : List Char} {s : Segment}
    (h : next cs = .ok (.member s rest)) : rest.length < cs.length := by
  have hle := length_skipBlank_le cs
  unfold next at h
  split at h
  · cases h
  · next c more heq =>
    rw [heq, List.length_cons] at hle
    split at h
    · split at h
      · cases h
      · next name after hn =>
        have := length_lt_of_readName hn
        cases h; omega
    · split at h
      · split at h
        · cases h
        · next s' after hb =>
          have h1 := length_lt_of_readBracket hb
          have h2 := length_skipBlank_le more
          cases h; omega
      · split at h
        · split at h
          · cases h
          · split at h <;> cases h
        · cases h

/-- The members that follow a head, and whether a call ends them. -/
def readTail (cs : List Char) : Except Failure (List Segment × Bool) :=
  match h : next cs with
  | .error f => .error f
  | .ok (.finish call) => .ok ([], call)
  | .ok (.member s rest) =>
    have : rest.length < cs.length := length_lt_of_next h
    match readTail rest with
    | .error f => .error f
    | .ok (segments, call) => .ok (s :: segments, call)
termination_by cs.length

/-- The head, the members and the call of a whole text. -/
def readParts (cs : List Char) : Except Failure (String × List Segment × Bool) :=
  match readName cs with
  | .error f => .error f
  | .ok (head, rest) =>
    match readTail rest with
    | .error f => .error f
    | .ok (tail, call) => .ok (head, tail, call)

/-- The expression that a text spells. An error carries the text as it was given. -/
def read (source : String) : Except Error Expression :=
  let cs := source.toList
  match readParts cs with
  | .error f => .error (.parse source f.message (f.offset cs))
  | .ok (head, tail, isCall) => .ok { source := trimmed source, head, tail, isCall }

/-- The path that an expression assigns to; a call cannot be assigned to. -/
def target (e : Expression) : Except Error Path :=
  if e.isCall then .error (.notAssignable e.source "call expressions are read-only")
  else .ok e.path

theorem eq_path_of_target {e : Expression} {path : Path} (h : e.target = .ok path) :
    path = e.path := by
  unfold target at h
  split at h <;> cases h
  rfl

end ReactiveView.Expression
