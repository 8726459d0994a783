import ReactiveView.Number.Binary
/-!
# The fewest digits that read back

The decimal that stands for a magnitude: of all decimals that round to it, one with the fewest
digits, and of those the one nearest to it.

The magnitude has a finite decimal expansion, since it is a multiple of `2^-1074`: with `u` units
it is `u * 5^1074` in units of `10^-1074`. The search looks at its two neighbours on ever
finer decimal grids, from the power of ten past it down to the grid of the expansion itself, which
always succeeds.
-/
namespace ReactiveView

/-- Which of two equally near decimals is taken. -/
inductive Tie where
  | toEven
  | upward
  deriving DecidableEq, Repr

/-- The decimal `digits * 10 ^ exponent`. -/
structure Decimal where
  digits : Nat
  exponent : Int
  deriving DecidableEq, Repr

namespace Decimal

/-- The decimal without the zeros at the end of its digits. -/
def strip (d : Decimal) : Decimal :=
  go d.digits d.exponent
where
  go (digits : Nat) (exponent : Int) : Decimal :=
    if h : digits ≠ 0 ∧ digits % 10 = 0 then go (digits / 10) (exponent + 1)
    else ⟨digits, exponent⟩
  termination_by digits
  decreasing_by exact Nat.div_lt_self (by omega) (by decide)

/-- The number of places behind the point that any magnitude needs at most. -/
def places : Nat := 1074

/-- The count of `10^-1074` in one unit of a magnitude. -/
def unit : Nat := Nat.pow 5 places

/-- A magnitude in units of `10^-1074`. -/
def expansion (u : Nat) : Nat := unit * u

/-- Whether a count of `10^-1074` rounds to a magnitude of `u` units. -/
def readsBack (u count : Nat) : Bool := Number.nearest count unit == u

/-- The neighbour of a magnitude on the decimal grid of a given step that stands for it: the one
that reads back, the nearer one if both do. -/
-- Irreducible: to unfold a search is to compute with the power of five in `unit`.
@[irreducible] def onGrid (tie : Tie) (u grid : Nat) : Option Nat :=
  let exact := expansion u
  let below := exact / grid
  let above := below + 1
  match readsBack u (below * grid), readsBack u (above * grid) with
  | true, true =>
    match compare (2 * exact) ((below + above) * grid) with
    | .lt => some below
    | .gt => some above
    | .eq => some (if tie = .toEven ∧ below % 2 = 0 then below else above)
  | true, false => some below
  | false, true => some above
  | false, false => none

/-- The decimal that stands for a magnitude of `u` units on the coarsest grid that has one, of the
grids with the step `10^power` and less. The finest grid has one, the expansion. -/
def search (tie : Tie) (u : Nat) : (power : Nat) → Decimal
  | 0 => ⟨expansion u, -places⟩
  | power + 1 =>
    match onGrid tie u (Nat.pow 10 (power + 1)) with
    | some digits => ⟨digits, (power + 1 : Nat) - (places : Int)⟩
    | none => search tie u power

/-- An exponent whose power of ten is past a number, though not far, since `2^93 < 10^28`. On a
coarser grid the neighbours of the number are zero and something over ten times as large. -/
def powerPast (n : Nat) : Nat := (n.log2 + 1) * 28 / 93 + 1

/-- The decimal that stands for a magnitude of `u` units. -/
def shortest (tie : Tie) (u : Nat) : Decimal :=
  if u = 0 then ⟨0, 0⟩ else (search tie u (powerPast (expansion u))).strip

end Decimal

end ReactiveView
