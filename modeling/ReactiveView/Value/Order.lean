import ReactiveView.Value.Basic
/-!
# Sameness and order of values

`same` compares values as data: numbers by their place (both zeros are one, and what is not a
number is the same as itself), lists and records member by member, records in order.

`order` puts null below everything else and compares scalars of one kind; values of different kinds
and containers are not ordered.
-/
namespace ReactiveView.Value

mutual

/-- Sameness as data. -/
def same : Value → Value → Bool
  | .null, .null => true
  | .bool a, .bool b => a == b
  | .number a, .number b => a.same b
  | .text a, .text b => a == b
  | .list as, .list bs => sameItems as bs
  | .record as, .record bs => sameEntries as bs
  | _, _ => false

/-- Sameness of lists, element by element. -/
def sameItems : List Value → List Value → Bool
  | [], [] => true
  | a :: as, b :: bs => a.same b && sameItems as bs
  | _, _ => false

/-- Sameness of records, entry by entry. -/
def sameEntries : List (String × Value) → List (String × Value) → Bool
  | [], [] => true
  | (k, a) :: as, (l, b) :: bs => k == l && a.same b && sameEntries as bs
  | _, _ => false

end

/-- The order of two values, where they have one. -/
def order : Value → Value → Option Ordering
  | .null, .null => some .eq
  | .null, _ => some .lt
  | _, .null => some .gt
  | .bool a, .bool b => some (compare a b)
  | .number a, .number b => a.order b
  | .text a, .text b => some (compare a b)
  | _, _ => none

end ReactiveView.Value
