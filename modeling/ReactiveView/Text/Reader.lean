/-!
# Reading text

A reader takes characters from the front of a text and hands back what is left. Where it fails it
says what it missed and keeps the text left at the place of the failure; the place itself is
counted in bytes of the text's UTF-8 form, from the front of the whole text.

`cut` finds a mark in a text, first occurrence.
-/
namespace ReactiveView.Text

/-- The length of a text in UTF-8. -/
def byteLength : List Char → Nat
  | [] => 0
  | c :: cs => c.utf8Size + byteLength cs

/-- Why a reader stopped, and the text that was left there. -/
structure Failure where
  message : String
  rest : List Char
  deriving DecidableEq, Repr

/-- The place of a failure in the whole text, in bytes. -/
def Failure.offset (whole : List Char) (f : Failure) : Nat :=
  byteLength whole - byteLength f.rest

/-- A reader of `α`: what it read and the text left, or the failure. -/
abbrev Reader (α : Type) := List Char → Except Failure (α × List Char)

/-- The text before and after the first occurrence of a mark. -/
def cut (mark : List Char) : List Char → Option (List Char × List Char)
  | [] => if mark.isEmpty then some ([], []) else none
  | c :: cs =>
    if mark.isPrefixOf (c :: cs) then some ([], (c :: cs).drop mark.length)
    else (cut mark cs).map fun parts => (c :: parts.1, parts.2)

/-- Whether a mark occurs in a text. -/
def occurs (mark cs : List Char) : Bool := (cut mark cs).isSome

@[simp] theorem byteLength_nil : byteLength [] = 0 := rfl

@[simp] theorem byteLength_cons (c : Char) (cs : List Char) :
    byteLength (c :: cs) = c.utf8Size + byteLength cs := rfl

@[simp] theorem byteLength_append (cs ds : List Char) :
    byteLength (cs ++ ds) = byteLength cs + byteLength ds := by
  induction cs with
  | nil => simp
  | cons c cs ih => simp [ih, Nat.add_assoc]

/-- A failure that left a tail of the text lies just past what precedes the tail. -/
theorem Failure.offset_append (front : List Char) (f : Failure) :
    f.offset (front ++ f.rest) = byteLength front := by
  simp [Failure.offset]

/-- Cutting loses nothing but the mark. -/
theorem cut_eq_some {mark cs before after : List Char} (h : cut mark cs = some (before, after)) :
    cs = before ++ mark ++ after := by
  induction cs generalizing before with
  | nil =>
    unfold cut at h
    split at h
    · simp_all
    · simp at h
  | cons c cs ih =>
    unfold cut at h
    split at h
    next hp =>
      obtain ⟨t, ht⟩ := List.isPrefixOf_iff_prefix.mp hp
      simp only [Option.some.injEq, Prod.mk.injEq] at h
      rw [← h.1, ← h.2, ← ht]
      simp
    next hp =>
      obtain ⟨parts, hparts, heq⟩ := Option.map_eq_some_iff.mp h
      cases heq
      simp [ih hparts]

/-- The part before the mark is no longer than the text. -/
theorem length_lt_of_cut {mark cs before after : List Char}
    (h : cut mark cs = some (before, after)) (hm : mark ≠ []) : after.length < cs.length := by
  have := congrArg List.length (cut_eq_some h)
  have : 0 < mark.length := List.length_pos_iff.mpr hm
  simp only [List.length_append] at *
  omega

end ReactiveView.Text
