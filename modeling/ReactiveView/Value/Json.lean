import ReactiveView.Number.Layout
import ReactiveView.Value.Basic
/-!
# Values as text

The text of a value is JSON: `display` and `json` on one line, `pretty` with a member a line. They
differ in two tables only: how a number that is no short integer is laid out, and which control
characters have an escape of one letter.

`render` is the text that a surface shows: nothing for null, a string without its quotes, and
`display` for the rest.

Values can be deep, so a text is written straight in front of what comes after it, and none is
copied from level to level.

Results:
* `compact_append`, `indented_append`: what comes after a value does not change its text.
-/
namespace ReactiveView

/-- The decisions of one spelling of JSON. -/
structure JsonStyle where
  /-- How numbers are laid out. -/
  layout : Layout
  /-- The control characters with an escape of one letter, and the letter. -/
  letters : List (Char × Char)

namespace JsonStyle

/-- The spelling of `display`. -/
def display : JsonStyle where
  layout := .plain
  letters := [('\n', 'n'), ('\r', 'r'), ('\t', 't')]

/-- The spelling of `json` and `pretty`. -/
def json : JsonStyle where
  layout := .scientific
  letters := [('\n', 'n'), ('\r', 'r'), ('\t', 't'), ('\x08', 'b'), ('\x0c', 'f')]

/-- A hexadecimal digit, small letters. -/
def hexDigit (n : Nat) : Char := if n < 10 then Char.ofNat (48 + n) else Char.ofNat (87 + n)

/-- A character inside quotes. -/
def escape (style : JsonStyle) (c : Char) : List Char :=
  if c = '"' then ['\\', '"']
  else if c = '\\' then ['\\', '\\']
  else
    match style.letters.lookup c with
    | some letter => ['\\', letter]
    | none =>
      if c.toNat < 0x20 then ['\\', 'u', '0', '0', hexDigit (c.toNat / 16), hexDigit (c.toNat % 16)]
      else [c]

/-- A text in quotes. -/
def quote (style : JsonStyle) (s : String) : List Char :=
  '"' :: s.toList.flatMap style.escape ++ ['"']

end JsonStyle

namespace Value

/-- What stands in front of a member: a comma, unless it is the first. -/
def comma (first : Bool) : List Char := if first then [] else [',']

mutual

/-- The text of a value on one line, in front of what comes after it. -/
def compact (style : JsonStyle) : Value → List Char → List Char
  | .null, after => "null".toList ++ after
  | .bool b, after => (if b then "true" else "false").toList ++ after
  | .number n, after => n.dataText style.layout ++ after
  | .text s, after => style.quote s ++ after
  | .list items, after => '[' :: compactItems style true items (']' :: after)
  | .record entries, after => '\x7b' :: compactEntries style true entries ('\x7d' :: after)

/-- The elements of a list with a comma before each but the first. -/
def compactItems (style : JsonStyle) (first : Bool) : List Value → List Char → List Char
  | [], after => after
  | v :: rest, after => comma first ++ compact style v (compactItems style false rest after)

/-- The entries of a record with a comma before each but the first. -/
def compactEntries (style : JsonStyle) (first : Bool) :
    List (String × Value) → List Char → List Char
  | [], after => after
  | (k, v) :: rest, after =>
    comma first ++ style.quote k ++
      ':' :: compact style v (compactEntries style false rest after)

end

mutual

theorem compact_append (style : JsonStyle) (v : Value) (cs ds : List Char) :
    compact style v (cs ++ ds) = compact style v cs ++ ds := by
  cases v with
  | list items =>
    simp only [compact, List.cons_append]
    rw [← List.cons_append, compactItems_append]
  | record entries =>
    simp only [compact, List.cons_append]
    rw [← List.cons_append, compactEntries_append]
  | _ => simp [compact]

theorem compactItems_append (style : JsonStyle) (first : Bool) (vs : List Value)
    (cs ds : List Char) :
    compactItems style first vs (cs ++ ds) = compactItems style first vs cs ++ ds := by
  cases vs with
  | nil => rfl
  | cons v rest =>
    simp only [compactItems, List.append_assoc]
    rw [compactItems_append style false rest, compact_append style v]

theorem compactEntries_append (style : JsonStyle) (first : Bool) (es : List (String × Value))
    (cs ds : List Char) :
    compactEntries style first es (cs ++ ds) = compactEntries style first es cs ++ ds := by
  cases es with
  | nil => rfl
  | cons e rest =>
    obtain ⟨k, v⟩ := e
    simp only [compactEntries, List.append_assoc, List.cons_append]
    rw [compactEntries_append style false rest, compact_append style v]

end

/-- A line break and the indent of a level, two blanks a level. -/
def breakLine (level : Nat) : List Char := '\n' :: List.replicate (2 * level) ' '

mutual

/-- The text of a value with a member a line, in front of what comes after it; an empty container
stays on its line. -/
def indented (style : JsonStyle) (level : Nat) : Value → List Char → List Char
  | .list [], after => '[' :: ']' :: after
  | .list (v :: rest), after =>
    '[' :: indentedItems style (level + 1) true (v :: rest) (breakLine level ++ ']' :: after)
  | .record [], after => '\x7b' :: '\x7d' :: after
  | .record (e :: rest), after =>
    '\x7b' :: indentedEntries style (level + 1) true (e :: rest) (breakLine level ++ '\x7d' :: after)
  | v, after => compact style v after

/-- The elements of a list, each on a line of its own. -/
def indentedItems (style : JsonStyle) (level : Nat) (first : Bool) :
    List Value → List Char → List Char
  | [], after => after
  | v :: rest, after =>
    comma first ++ breakLine level ++
      indented style level v (indentedItems style level false rest after)

/-- The entries of a record, each on a line of its own. -/
def indentedEntries (style : JsonStyle) (level : Nat) (first : Bool) :
    List (String × Value) → List Char → List Char
  | [], after => after
  | (k, v) :: rest, after =>
    comma first ++ breakLine level ++ style.quote k ++
      ':' :: ' ' :: indented style level v (indentedEntries style level false rest after)

end

mutual

theorem indented_append (style : JsonStyle) (level : Nat) (v : Value) (cs ds : List Char) :
    indented style level v (cs ++ ds) = indented style level v cs ++ ds := by
  cases v with
  | list items =>
    cases items with
    | nil => simp [indented]
    | cons v rest =>
      simp only [indented, List.cons_append]
      rw [← List.cons_append, ← List.append_assoc, indentedItems_append]
  | record entries =>
    cases entries with
    | nil => simp [indented]
    | cons e rest =>
      simp only [indented, List.cons_append]
      rw [← List.cons_append, ← List.append_assoc, indentedEntries_append]
  | _ => simp [indented, compact_append]

theorem indentedItems_append (style : JsonStyle) (level : Nat) (first : Bool) (vs : List Value)
    (cs ds : List Char) :
    indentedItems style level first vs (cs ++ ds) = indentedItems style level first vs cs ++ ds := by
  cases vs with
  | nil => simp [indentedItems]
  | cons v rest =>
    simp only [indentedItems, List.append_assoc]
    rw [indentedItems_append style level false rest, indented_append style level v]

theorem indentedEntries_append (style : JsonStyle) (level : Nat) (first : Bool)
    (es : List (String × Value)) (cs ds : List Char) :
    indentedEntries style level first es (cs ++ ds) =
      indentedEntries style level first es cs ++ ds := by
  cases es with
  | nil => simp [indentedEntries]
  | cons e rest =>
    obtain ⟨k, v⟩ := e
    simp only [indentedEntries, List.append_assoc, List.cons_append]
    rw [indentedEntries_append style level false rest, indented_append style level v]

end

/-- The text of a value in messages and on surfaces. -/
def display (v : Value) : String := String.ofList (v.compact .display [])

/-- The text of a value for exchange, on one line. -/
def json (v : Value) : String := String.ofList (v.compact .json [])

/-- The text of a value for exchange, a member a line. -/
def pretty (v : Value) : String := String.ofList (v.indented .json 0 [])

/-- What a surface shows of a value. -/
def render : Value → String
  | .null => ""
  | .text s => s
  | v => v.display

end Value

end ReactiveView
