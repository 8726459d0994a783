/-!
# Numerals

Unsigned numerals as they are read (`numeral`) and written (`decimal`).

A numeral is a non-empty run of digits of its base, after at most one plus sign, whose value is
below a limit. So `007` and `+7` are numerals for seven, while a lone `+`, a minus sign, a blank or
a digit of another script make the text no numeral.

Results:
* `numeral_decimal`: what is written is read back, for every number below the limit.
-/
namespace ReactiveView.Text

/-- The value of a digit in bases up to 36; the case of letters does not matter. -/
def digitValue (base : Nat) (c : Char) : Option Nat :=
  let n := c.toNat
  let v :=
    if '0' ≤ c ∧ c ≤ '9' then n - 48
    else if 'a' ≤ c ∧ c ≤ 'z' then n - 87
    else if 'A' ≤ c ∧ c ≤ 'Z' then n - 55
    else base
  if v < base then some v else none

/-- The value of a run of digits that continues a number read so far. -/
def digitsValue (base : Nat) : Nat → List Char → Option Nat
  | n, [] => some n
  | n, c :: cs => (digitValue base c).bind fun d => digitsValue base (n * base + d) cs

/-- The value of a numeral in a base, if it is below the limit. -/
def numeral (base limit : Nat) (cs : List Char) : Option Nat :=
  let digits := match cs with
    | '+' :: rest => rest
    | _ => cs
  if digits.isEmpty then none else (digitsValue base 0 digits).filter (· < limit)

/-- Indices are 64 bits wide. -/
def indexLimit : Nat := Nat.pow 2 64

/-- The index a text denotes, if it is a decimal numeral of 64 bits. -/
def indexOf? (s : String) : Option Nat := numeral 10 indexLimit s.toList

/-- The decimal numeral of a number, without leading zeros. -/
def decimal (n : Nat) : List Char := Nat.toDigits 10 n

theorem digitValue_of_isDigit {c : Char} (h : c.isDigit) : digitValue 10 c = some (c.toNat - 48) := by
  have h1 : '0' ≤ c ∧ c ≤ '9' := by
    simp only [Char.isDigit, Bool.and_eq_true, decide_eq_true_eq] at h
    exact h
  have h2 : c.toNat ≤ '9'.toNat := h1.2
  have h3 : '9'.toNat = 57 := rfl
  simp only [digitValue, h1, and_self, if_true]
  rw [if_pos (by omega)]

theorem digitsValue_eq_ofDigitChars {cs : List Char} (h : ∀ c ∈ cs, c.isDigit) (n : Nat) :
    digitsValue 10 n cs = some (Nat.ofDigitChars 10 cs n) := by
  induction cs generalizing n with
  | nil => simp [digitsValue]
  | cons c cs ih =>
    have hc := digitValue_of_isDigit (h c (by simp))
    simp only [digitsValue, hc, Option.bind_some]
    rw [ih (fun d hd => h d (by simp [hd]))]
    simp [Nat.ofDigitChars_cons, Nat.mul_comm]

theorem isDigit_of_mem_decimal {n : Nat} {c : Char} (h : c ∈ decimal n) : c.isDigit :=
  Nat.isDigit_of_mem_toDigits (by decide) (by decide) h

theorem decimal_ne_nil (n : Nat) : decimal n ≠ [] := by
  simp [decimal]

theorem digitsValue_decimal (n : Nat) : digitsValue 10 0 (decimal n) = some n := by
  rw [digitsValue_eq_ofDigitChars fun c hc => isDigit_of_mem_decimal hc]
  exact congrArg some (Nat.ofDigitChars_toDigits (by decide) (by decide))

theorem numeral_decimal {n limit : Nat} (h : n < limit) :
    numeral 10 limit (decimal n) = some n := by
  have hne := decimal_ne_nil n
  have hplus : (match decimal n with
      | '+' :: rest => rest
      | _ => decimal n) = decimal n := by
    split
    next rest heq =>
      have := isDigit_of_mem_decimal (n := n) (c := '+') (by simp [heq])
      exact absurd this (by decide)
    next => rfl
  simp only [numeral, hplus]
  rw [if_neg (by simpa using hne), digitsValue_decimal]
  simp [Option.filter, h]

end ReactiveView.Text
