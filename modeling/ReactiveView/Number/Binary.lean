/-!
# Binary64 numbers, exactly

Every finite binary64 number is a whole multiple of `2^-1074`, so a magnitude is kept as that
multiple: a natural number of *units* with at most 53 significant bits and below `2^2098`. Order
and sums are then order and sums of whole numbers, and rounding is one function, `nearest`.

Results:
* `nearest_mul`: a representable count is its own nearest count.
-/
namespace ReactiveView

namespace Number

/-- The units in one. -/
def one : Nat := Nat.pow 2 1074

/-- The first count of units past the largest magnitude. -/
def bound : Nat := Nat.pow 2 2098

/-- The step between neighbouring magnitudes at a count of units. -/
def step (u : Nat) : Nat := Nat.pow 2 (u.log2 - 52)

/-- A count of units that a magnitude can have: below the bound, at most 53 significant bits. -/
def Representable (u : Nat) : Prop := u < bound ∧ step u ∣ u

instance (u : Nat) : Decidable (Representable u) := by unfold Representable; infer_instance

/-- The whole number nearest to a quotient; a half goes to the even neighbour. -/
def divNearest (num den : Nat) : Nat :=
  let q := num / den
  let r := num % den
  if 2 * r < den ∨ (2 * r = den ∧ q % 2 = 0) then q else q + 1

/-- The count of units nearest to `num / den` units, with at most 53 significant bits. -/
def nearest (num den : Nat) : Nat :=
  let s := step (num / den)
  divNearest num (den * s) * s

end Number

/-- The magnitude of a finite number, in units of `2^-1074`. -/
structure Magnitude where
  units : Nat
  representable : Number.Representable units
  deriving DecidableEq

/-- A binary64 number. Zero has a sign; there is one value that is not a number. -/
inductive Number where
  | nan
  | infinite (negative : Bool)
  | finite (negative : Bool) (size : Magnitude)
  deriving DecidableEq

namespace Number

/-- The number with a count of units; past the largest magnitude it is infinite. -/
def ofUnits (negative : Bool) (u : Nat) : Number :=
  if h : Representable u then .finite negative ⟨u, h⟩ else .infinite negative

/-- The number nearest to a quotient. -/
def ofRatio (negative : Bool) (num den : Nat) : Number :=
  ofUnits negative (nearest (num * one) den)

/-- The number nearest to `digits * 10 ^ exponent`. -/
def ofDecimal (negative : Bool) (digits : Nat) (exponent : Int) : Number :=
  match exponent with
  | .ofNat e => ofRatio negative (digits * Nat.pow 10 e) 1
  | .negSucc e => ofRatio negative digits (Nat.pow 10 (e + 1))

/-- The number nearest to a whole number. -/
def ofInt (i : Int) : Number := ofRatio (decide (i < 0)) i.natAbs 1

/-- The number nearest to a natural number. -/
def ofNat (n : Nat) : Number := ofRatio false n 1

def zero : Number := ofNat 0

instance : Inhabited Number := ⟨zero⟩

/-- The place of a number on the line, in units; the infinities stand at the bounds. What is not a
number has no place, and both zeros have the same one. -/
def place : Number → Option Int
  | .nan => none
  | .infinite negative => some (if negative then -bound else bound)
  | .finite negative size => some (if negative then -size.units else size.units)

/-- The order of two numbers; there is none if one of them is not a number. -/
def order (a b : Number) : Option Ordering :=
  match a.place, b.place with
  | some i, some j => some (compare i j)
  | _, _ => none

/-- Sameness of numbers as data: the same place, or both not a number. -/
def same (a b : Number) : Bool := a.place == b.place

def isFinite : Number → Bool
  | .finite _ _ => true
  | _ => false

/-- The whole number that a number is, if it is one. -/
def whole? : Number → Option Int
  | .finite negative size =>
    if size.units % one = 0 then
      let n : Int := (size.units / one : Nat)
      some (if negative then -n else n)
    else none
  | _ => none

/-- The rounded sum. A sum of opposite numbers is positive zero. -/
def add : Number → Number → Number
  | .nan, _ => .nan
  | _, .nan => .nan
  | .infinite a, .infinite b => if a = b then .infinite a else .nan
  | .infinite a, .finite _ _ => .infinite a
  | .finite _ _, .infinite b => .infinite b
  | .finite a x, .finite b y =>
    let i : Int := if a then -x.units else x.units
    let j : Int := if b then -y.units else y.units
    let negative := if i + j = 0 then a && b else decide (i + j < 0)
    ofUnits negative (nearest (i + j).natAbs 1)

theorem divNearest_of_dvd {num den : Nat} (h : den ∣ num) (hd : 0 < den) :
    divNearest num den = num / den := by
  have hr : num % den = 0 := Nat.mod_eq_zero_of_dvd h
  simp [divNearest, hr, hd]

theorem step_pos (u : Nat) : 0 < step u := Nat.two_pow_pos _

theorem nearest_mul {u den : Nat} (h : Representable u) (hden : 0 < den) :
    nearest (den * u) den = u := by
  have hs : 0 < step u := step_pos u
  have hu : den * u / den = u := Nat.mul_div_cancel_left u hden
  have hdvd : den * step u ∣ den * u := Nat.mul_dvd_mul_left den h.2
  simp only [nearest, hu]
  rw [divNearest_of_dvd hdvd (Nat.mul_pos hden hs), ← Nat.div_div_eq_div_mul, hu,
    Nat.div_mul_cancel h.2]

end Number

end ReactiveView
