import ReactiveView.Text.LetterTable
/-!
# Letters, digits and names

The character classes that names are made of. The basic 128 characters are decided by rule, so
that names of the basic alphabet never touch the tables.

* `isLetter`: the property Alphabetic;
* `isAlphanumeric`: Alphabetic, or one of the number categories Nd, Nl, No;
* `isDigit`, `lower`, `sameIgnoringCase`: the ten basic digits and the basic letter case only.
-/
namespace ReactiveView.Text

/-- Whether a code point lies in one of the ranges. -/
def inRanges (ranges : List (Nat × Nat)) (n : Nat) : Bool :=
  ranges.any fun r => r.1 ≤ n && n ≤ r.2

/-- One of the ten basic digits. -/
def isDigit (c : Char) : Bool := '0' ≤ c && c ≤ '9'

/-- A letter of the basic alphabet. -/
def isBasicLetter (c : Char) : Bool := ('a' ≤ c && c ≤ 'z') || ('A' ≤ c && c ≤ 'Z')

/-- The property Alphabetic. -/
def isLetter (c : Char) : Bool :=
  if c.toNat < 128 then isBasicLetter c else inRanges alphabeticRanges c.toNat

/-- Alphabetic, or a number of any script. -/
def isAlphanumeric (c : Char) : Bool :=
  if c.toNat < 128 then isBasicLetter c || isDigit c
  else inRanges alphabeticRanges c.toNat || inRanges numericRanges c.toNat

/-- The lower case of the basic letters; every other character is kept. -/
def lower (c : Char) : Char :=
  if 'A' ≤ c && c ≤ 'Z' then Char.ofNat (c.toNat + 32) else c

/-- The string in lower case, basic letters only. -/
def lowered (s : String) : String := String.ofList (s.toList.map lower)

/-- Equality up to the case of basic letters. -/
def sameIgnoringCase (s t : String) : Bool := lowered s == lowered t

theorem isAlphanumeric_of_isDigit {c : Char} (h : isDigit c) : isAlphanumeric c := by
  unfold isAlphanumeric
  have hlt : c.toNat < 128 := by
    simp only [isDigit, Bool.and_eq_true, decide_eq_true_eq] at h
    have : c.toNat ≤ '9'.toNat := h.2
    exact Nat.lt_of_le_of_lt this (by decide)
  simp [hlt, h]

theorem lower_lower (c : Char) : lower (lower c) = lower c := by
  unfold lower
  split
  next h =>
    have h2 : 'A'.toNat ≤ c.toNat ∧ c.toNat ≤ 'Z'.toNat := by
      simp only [Bool.and_eq_true, decide_eq_true_eq] at h; exact h
    have key : ∀ n ∈ List.range 26,
        ¬('A' ≤ Char.ofNat (n + 65 + 32) ∧ Char.ofNat (n + 65 + 32) ≤ 'Z') := by decide
    have e1 : 'A'.toNat = 65 := rfl
    have e2 : 'Z'.toNat = 90 := rfl
    have := key (c.toNat - 65) (by rw [List.mem_range]; omega)
    rw [show c.toNat - 65 + 65 + 32 = c.toNat + 32 by omega] at this
    simp [this]
  next => simp

theorem lowered_lowered (s : String) : lowered (lowered s) = lowered s := by
  simp [lowered, Function.comp_def, lower_lower]

end ReactiveView.Text
