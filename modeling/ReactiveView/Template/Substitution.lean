import ReactiveView.Expression.Reader
import ReactiveView.Markup.Fragment
import ReactiveView.Template.Interpolation
/-!
# Substitution of items

A repeat makes copies of its template in which the name of the item gives way to an accessor of one
member of the collection. The name gives way only where it starts a path: not after a point, and not
in quotes. In a text that happens inside interpolations only; in the attribute of a directive, all
over the value.

Only a word that starts with a letter, `_` or `$` can be the name of an item.
-/
namespace ReactiveView.Template

open Text

/-- The characters that words are made of. -/
def isWordChar (c : Char) : Bool := Expression.isNameChar c

/-- The characters that the name of an item can start with. -/
def startsWord (c : Char) : Bool := isLetter c || c == '_' || c == '$'

/-- The rest of a quoted text up to and with its closing quote, and what follows. A backslash takes
the next character along. -/
def quotedPart (quote : Char) : List Char → List Char × List Char
  | [] => ([], [])
  | ['\\'] => (['\\'], [])
  | '\\' :: c :: rest =>
    let (part, after) := quotedPart quote rest
    ('\\' :: c :: part, after)
  | c :: rest =>
    if c = quote then ([c], rest)
    else
      let (part, after) := quotedPart quote rest
      (c :: part, after)

theorem length_le_of_quotedPart (quote : Char) (cs : List Char) :
    (quotedPart quote cs).2.length ≤ cs.length := by
  fun_induction quotedPart quote cs with
  | case1 => simp
  | case2 => simp
  | case3 c rest part after h ih =>
    rw [h] at ih
    simp only [List.length_cons] at ih ⊢
    omega
  | case4 => simp
  | case5 c rest _ _ _ part after h ih =>
    rw [h] at ih
    simp only [List.length_cons] at ih ⊢
    omega

/-- An expression text with the item replaced by the accessor. Whether a point came last decides
about the first word. -/
def substituteFrom (item accessor : List Char) (afterPoint : Bool) (cs : List Char) : List Char :=
  match cs with
  | [] => []
  | c :: rest =>
    if isWordChar c then
      let word := c :: rest.takeWhile isWordChar
      (if startsWord c && word == item && !afterPoint then accessor else word) ++
        substituteFrom item accessor false (rest.dropWhile isWordChar)
    else if c = '\'' ∨ c = '"' then
      c :: (quotedPart c rest).1 ++ substituteFrom item accessor afterPoint (quotedPart c rest).2
    else if c = '.' then c :: substituteFrom item accessor true rest
    else c :: substituteFrom item accessor (afterPoint && isBlank c) rest
termination_by cs.length
decreasing_by
  · exact Nat.lt_succ_of_le (length_dropWhile_le _ _)
  · exact Nat.lt_succ_of_le (length_le_of_quotedPart _ _)
  · exact Nat.lt_succ_self _
  · exact Nat.lt_succ_self _

/-- An expression text with the item replaced by the accessor. -/
def substitute (item accessor cs : List Char) : List Char :=
  substituteFrom item accessor false cs

/-- A text with the item replaced by the accessor inside its interpolations. -/
def substituteInside (item accessor cs : List Char) : List Char :=
  match h : cut openMark cs with
  | none => cs
  | some (before, rest) =>
    match h' : cut closeMark rest with
    | none => cs
    | some (inner, after) =>
      have : after.length < cs.length := by
        have h1 := length_lt_of_cut h (by simp [openMark])
        have h2 := length_lt_of_cut h' (by simp [closeMark])
        omega
      before ++ openMark ++ substitute item accessor inner ++ closeMark ++
        substituteInside item accessor after
termination_by cs.length
decreasing_by all_goals assumption

/-- An attribute with the item replaced by the accessor. -/
def substituteAttribute (isDirective : String → Bool) (item accessor : List Char)
    (a : String × String) : String × String :=
  (a.1, String.ofList
    (if isDirective a.1 then substitute item accessor a.2.toList
    else substituteInside item accessor a.2.toList))

mutual

/-- A fragment with the item replaced by the accessor, comments apart. -/
def substituteOne (isDirective : String → Bool) (item accessor : List Char) : Fragment → Fragment
  | .text s => .text (String.ofList (substituteInside item accessor s.toList))
  | .comment s => .comment s
  | .element tag attributes children =>
    .element tag (attributes.map (substituteAttribute isDirective item accessor))
      (substituteAll isDirective item accessor children)

/-- Fragments with the item replaced by the accessor. -/
def substituteAll (isDirective : String → Bool) (item accessor : List Char) :
    List Fragment → List Fragment
  | [] => []
  | f :: rest =>
    substituteOne isDirective item accessor f :: substituteAll isDirective item accessor rest

end

/-- An expression text with the item replaced by the accessor, as strings. -/
def substituteText (source item accessor : String) : String :=
  String.ofList (substitute item.toList accessor.toList source.toList)

end ReactiveView.Template
