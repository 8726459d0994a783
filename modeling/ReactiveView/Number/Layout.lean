import ReactiveView.Number.Shortest
import ReactiveView.Text.Numeral
/-!
# How numbers are written

A `Layout` holds the decisions of one way to write a finite number; `render` follows it. Three
texts are written with it: the text of a number by itself (`plainText`), and the two spellings
inside data texts (`dataText`), where whole numbers short of `10^15` are written as integers and
what is not finite is written `null`.

Results:
* `dataText_of_short`, `dataText_of_long`, `dataText_of_not_finite`: the three kinds of numbers in
  data texts.
-/
namespace ReactiveView

/-- The decisions of one way to write finite numbers. -/
structure Layout where
  /-- Which of two equally near decimals is written. -/
  tie : Tie
  /-- Whether a number is written positionally, by the exponent of its leading digit. -/
  positional : Int → Bool
  /-- Whether a whole number written positionally ends in `.0`. -/
  pointZero : Bool

namespace Layout

/-- Always positional, as many zeros as it takes; two equally near decimals: the upper one. -/
def plain : Layout where
  tie := .upward
  positional := fun _ => true
  pointZero := false

/-- Positional from `10^-5` to below `10^16`, with an exponent outside. -/
def scientific : Layout where
  tie := .toEven
  positional := fun e => -5 ≤ e && e ≤ 15
  pointZero := true

/-- The digits of a decimal with the point at its place. -/
def writePositional (l : Layout) (digits : List Char) (exponent : Int) : List Char :=
  match exponent with
  | .ofNat zeros =>
    digits ++ List.replicate zeros '0' ++ (if l.pointZero then ['.', '0'] else [])
  | .negSucc n =>
    let behind := n + 1
    if behind < digits.length then
      digits.take (digits.length - behind) ++ '.' :: digits.drop (digits.length - behind)
    else '0' :: '.' :: List.replicate (behind - digits.length) '0' ++ digits

/-- The leading digit, the point before the others, and the exponent with its sign. -/
def writeScientific (digits : List Char) (lead : Int) : List Char :=
  let fraction := digits.drop 1
  digits.take 1 ++ (if fraction.isEmpty then [] else '.' :: fraction) ++
    ['e', if lead < 0 then '-' else '+'] ++ Text.decimal lead.natAbs

/-- The text of a decimal. -/
def writeDecimal (l : Layout) (d : Decimal) : List Char :=
  let digits := Text.decimal d.digits
  let lead := d.exponent + digits.length - 1
  if l.positional lead then l.writePositional digits d.exponent
  else writeScientific digits lead

/-- The text of a finite number. -/
def render (l : Layout) (negative : Bool) (size : Magnitude) : List Char :=
  (if negative then ['-'] else []) ++ l.writeDecimal (Decimal.shortest l.tie size.units)

end Layout

namespace Number

/-- The decimal numeral of an integer. -/
def integerText (i : Int) : List Char :=
  (if i < 0 then ['-'] else []) ++ Text.decimal i.natAbs

/-- The text of a number by itself. -/
def plainText : Number → List Char
  | .nan => "NaN".toList
  | .infinite negative => (if negative then "-inf" else "inf").toList
  | .finite negative size => Layout.plain.render negative size

/-- The whole number that a number is, if it is one short of `10^15`. -/
def short? (n : Number) : Option Int := n.whole?.filter fun i => i.natAbs < Nat.pow 10 15

/-- The text of a number inside a data text. -/
def dataText (l : Layout) (n : Number) : List Char :=
  match n, n.short? with
  | _, some i => integerText i
  | .finite negative size, none => l.render negative size
  | _, none => "null".toList

theorem dataText_of_short {n : Number} {i : Int} (h : n.short? = some i) (l : Layout) :
    n.dataText l = integerText i := by
  unfold dataText
  rw [h]

theorem dataText_of_long {negative : Bool} {size : Magnitude}
    (h : (finite negative size).short? = none) (l : Layout) :
    (finite negative size).dataText l = l.render negative size := by
  unfold dataText
  rw [h]

theorem dataText_of_not_finite {n : Number} (h : n.isFinite = false) (l : Layout) :
    n.dataText l = "null".toList := by
  cases n with
  | finite negative size => exact absurd h (by simp [isFinite])
  | nan => rfl
  | infinite negative => rfl

end Number

end ReactiveView
