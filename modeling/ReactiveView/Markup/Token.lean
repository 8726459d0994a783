import ReactiveView.Markup.Fragment
import ReactiveView.Markup.Reference
import ReactiveView.Text.Blank
import ReactiveView.Text.Letter
import ReactiveView.Text.Reader
/-!
# Markup tokens

The pieces that a markup text falls into: opening and closing tags, texts, comments, and
declarations, which say nothing.

Reading is forgiving: attribute values may be in either quote or bare, an attribute may have no
value, and a `<` that starts none of the other tokens is text. Names come in lower case. Of two
attributes of one name in a tag the first one counts.

Results:
* `length_le_of_readToken`: every token takes at least one character.
-/
namespace ReactiveView.Markup

open Text

/-- A piece of a markup text. -/
inductive Token where
  /-- A tag that opens an element; it may close the element at once. -/
  | opening (tag : String) (attributes : Entries String) (closed : Bool)
  | closing (tag : String)
  | text (s : String)
  | comment (s : String)
  | declaration
  deriving DecidableEq, Repr

/-- The characters at which a tag or attribute name ends. -/
def endsName (c : Char) : Bool :=
  isBlank c || c == '/' || c == '>' || c == '=' || c == '<' || c == '"' || c == '\''

/-- The name at the front of a text, in lower case, and what follows it. -/
def readName (cs : List Char) : String × List Char :=
  (lowered (String.ofList (cs.takeWhile fun c => !endsName c)), cs.dropWhile fun c => !endsName c)

/-- The characters at which a bare attribute value ends. -/
def endsValue (c : Char) : Bool := isBlank c || c == '>'

/-- An attribute value, in quotes or bare. -/
def readValue : Reader String := fun cs =>
  match cs with
  | [] => .ok ("", [])
  | q :: rest =>
    if q = '"' ∨ q = '\'' then
      match cut [q] rest with
      | none => .error ⟨"Expected '" ++ q.toString ++ "'", rest⟩
      | some (raw, after) => .ok (String.ofList (decode raw), after)
    else
      .ok (String.ofList (decode (cs.takeWhile fun c => !endsValue c)),
        cs.dropWhile fun c => !endsValue c)

/-- An attribute whose name is at the front of a text. -/
def readAttribute : Reader (String × String) := fun cs =>
  let (name, after) := readName cs
  match skipBlank after with
  | '=' :: rest =>
    match readValue (skipBlank rest) with
    | .error f => .error f
    | .ok (value, after) => .ok ((name, value), after)
  | rest => .ok ((name, ""), rest)

theorem length_le_of_readValue {cs rest : List Char} {s : String}
    (h : readValue cs = .ok (s, rest)) : rest.length ≤ cs.length := by
  unfold readValue at h
  split at h
  · cases h; simp
  · next q more =>
    split at h
    · split at h
      · cases h
      · next raw after hc =>
        have := length_lt_of_cut hc (by simp)
        cases h
        simp only [List.length_cons]
        omega
    · obtain ⟨_, rfl⟩ := Prod.mk.inj (Except.ok.inj h)
      exact length_dropWhile_le _ _

theorem length_lt_of_readAttribute {c : Char} {cs rest : List Char} {a : String × String}
    (hc : endsName c = false) (h : readAttribute (c :: cs) = .ok (a, rest)) :
    rest.length < (c :: cs).length := by
  have h1 : ((c :: cs).dropWhile fun d => !endsName d).length ≤ cs.length := by
    rw [List.dropWhile_cons_of_pos (by simp [hc])]
    exact length_dropWhile_le _ _
  have h2 := length_skipBlank_le ((c :: cs).dropWhile fun d => !endsName d)
  unfold readAttribute at h
  simp only [readName] at h
  split at h
  · next more heq =>
    rw [heq] at h2
    have h3 := length_skipBlank_le more
    split at h
    · cases h
    · next value after hv =>
      have h4 := length_le_of_readValue hv
      obtain ⟨_, rfl⟩ := Prod.mk.inj (Except.ok.inj h)
      simp only [List.length_cons] at h2 ⊢
      omega
  · obtain ⟨_, rfl⟩ := Prod.mk.inj (Except.ok.inj h)
    simp only [List.length_cons]
    omega

/-- The rest of an opening tag: its attributes as they stand, whether it closes itself, and what
follows the tag. -/
def readAttributes (tag : String) (cs : List Char) :
    Except Failure (List (String × String) × Bool × List Char) :=
  match h : skipBlank cs with
  | [] => .error ⟨"Unterminated tag <" ++ tag ++ ">", []⟩
  | '>' :: rest => .ok ([], false, rest)
  | '/' :: '>' :: rest => .ok ([], true, rest)
  | c :: rest =>
    if hc : endsName c then .error ⟨"Expected attribute name", c :: rest⟩
    else
      match ha : readAttribute (c :: rest) with
      | .error f => .error f
      | .ok (a, after) =>
        have : after.length < cs.length := by
          have h1 := length_lt_of_readAttribute (by simpa using hc) ha
          have h2 := length_skipBlank_le cs
          rw [h] at h2
          omega
        match readAttributes tag after with
        | .error f => .error f
        | .ok (attributes, closed, rest) => .ok (a :: attributes, closed, rest)
termination_by cs.length

theorem length_lt_of_readAttributes {tag : String} {cs rest : List Char}
    {attributes : List (String × String)} {closed : Bool}
    (h : readAttributes tag cs = .ok (attributes, closed, rest)) : rest.length < cs.length := by
  fun_induction readAttributes tag cs generalizing attributes closed rest with
  | case1 => cases h
  | case2 cs more heq =>
    cases h
    have := length_skipBlank_le cs
    rw [heq, List.length_cons] at this
    omega
  | case3 cs more heq =>
    cases h
    have := length_skipBlank_le cs
    rw [heq, List.length_cons, List.length_cons] at this
    omega
  | case4 => cases h
  | case5 => cases h
  | case6 => cases h
  | case7 cs c more hne1 hne2 heq hc a after ha hlt attributes' closed' rest' hr ih =>
    cases h
    have := ih hr
    omega

/-- A text token: at least its first character, then everything short of the next `<`. -/
def readText (c : Char) (cs : List Char) : Token × List Char :=
  (.text (String.ofList (decode (c :: cs.takeWhile (· ≠ '<')))), cs.dropWhile (· ≠ '<'))

/-- The comment whose text starts here. -/
def readComment (cs : List Char) : Except Failure (Token × List Char) :=
  match cut "-->".toList cs with
  | none => .error ⟨"Expected '-->'", cs⟩
  | some (body, after) => .ok (.comment (String.ofList body), after)

/-- The declaration that goes on here; a failure is placed at its start. -/
def readDeclaration (start cs : List Char) : Except Failure (Token × List Char) :=
  match cut ['>'] cs with
  | none => .error ⟨"Expected '>'", start⟩
  | some (_, after) => .ok (.declaration, after)

/-- The closing tag whose name starts here. -/
def readClosing (cs : List Char) : Except Failure (Token × List Char) :=
  match skipBlank (readName cs).2 with
  | '>' :: after => .ok (.closing (readName cs).1, after)
  | other => .error ⟨"Expected '>'", other⟩

/-- The opening tag whose name starts here. -/
def readOpening (cs : List Char) : Except Failure (Token × List Char) :=
  match readAttributes (readName cs).1 (readName cs).2 with
  | .error f => .error f
  | .ok (attributes, closed, after) =>
    .ok (.opening (readName cs).1 (Entries.firsts attributes) closed, after)

/-- The token at the front of a text that starts with the given character. -/
def readToken (c : Char) (cs : List Char) : Except Failure (Token × List Char) :=
  if c = '<' then
    match cs with
    | '!' :: '-' :: '-' :: rest => readComment rest
    | '!' :: rest => readDeclaration (c :: cs) rest
    | '?' :: rest => readDeclaration (c :: cs) rest
    | '/' :: rest => readClosing rest
    | d :: _ => if isBasicLetter d then readOpening cs else .ok (readText c cs)
    | [] => .ok (readText c cs)
  else .ok (readText c cs)

theorem length_le_of_readComment {cs rest : List Char} {t : Token}
    (h : readComment cs = .ok (t, rest)) : rest.length ≤ cs.length := by
  unfold readComment at h
  split at h
  · cases h
  · next body after hc =>
    have := length_lt_of_cut hc (by simp)
    cases h
    omega

theorem length_le_of_readDeclaration {start cs rest : List Char} {t : Token}
    (h : readDeclaration start cs = .ok (t, rest)) : rest.length ≤ cs.length := by
  unfold readDeclaration at h
  split at h
  · cases h
  · next body after hc =>
    have := length_lt_of_cut hc (by simp)
    cases h
    omega

theorem length_le_of_readName (cs : List Char) : (readName cs).2.length ≤ cs.length :=
  length_dropWhile_le _ _

theorem length_le_of_readClosing {cs rest : List Char} {t : Token}
    (h : readClosing cs = .ok (t, rest)) : rest.length ≤ cs.length := by
  have h1 := length_le_of_readName cs
  have h2 := length_skipBlank_le (readName cs).2
  unfold readClosing at h
  split at h
  · next after heq =>
    cases h
    rw [heq, List.length_cons] at h2
    omega
  · cases h

theorem length_le_of_readOpening {cs rest : List Char} {t : Token}
    (h : readOpening cs = .ok (t, rest)) : rest.length ≤ cs.length := by
  have h1 := length_le_of_readName cs
  unfold readOpening at h
  split at h
  · cases h
  · next attributes closed after ha =>
    have := length_lt_of_readAttributes ha
    cases h
    omega

theorem length_le_of_readText {c : Char} {cs rest : List Char} {t : Token}
    (h : readText c cs = (t, rest)) : rest.length ≤ cs.length := by
  have h' : (readText c cs).2 = rest := congrArg Prod.snd h
  rw [← h']
  exact length_dropWhile_le _ _

theorem length_le_of_readToken {c : Char} {cs rest : List Char} {t : Token}
    (h : readToken c cs = .ok (t, rest)) : rest.length ≤ cs.length := by
  unfold readToken at h
  split at h
  · split at h
    · have := length_le_of_readComment h
      simp only [List.length_cons]
      omega
    · have := length_le_of_readDeclaration h
      simp only [List.length_cons]
      omega
    · have := length_le_of_readDeclaration h
      simp only [List.length_cons]
      omega
    · have := length_le_of_readClosing h
      simp only [List.length_cons]
      omega
    · split at h
      · exact length_le_of_readOpening h
      · exact length_le_of_readText (Except.ok.inj h)
    · exact length_le_of_readText (Except.ok.inj h)
  · exact length_le_of_readText (Except.ok.inj h)

/-- The attributes of a tag as they are written. -/
def writeAttributes (attributes : List (String × String)) : List Char :=
  attributes.flatMap fun a => ' ' :: a.1.toList ++ '=' :: '"' :: escapeAttribute a.2.toList ++ ['"']

/-- A token as it is written. An element is never written as closed at once. -/
def Token.write : Token → List Char
  | .opening tag attributes _ => '<' :: tag.toList ++ writeAttributes attributes ++ ['>']
  | .closing tag => '<' :: '/' :: tag.toList ++ ['>']
  | .text s => escapeText s.toList
  | .comment s => "<!--".toList ++ s.toList ++ "-->".toList
  | .declaration => []

end ReactiveView.Markup
