import ReactiveView.Proofs.Number.ReadBack
import ReactiveView.Value.Order
/-!
# Sameness and order of values

Two values are the same iff they are one value when the signs of zeros are left out, at any depth.
That is equality after a function, so sameness is an equivalence.

The order puts null below every other value and compares scalars of one kind by their contents.
Values that it finds equal are the same. The way back is open to some values only: lists and records
can be the same but have no order, and what is not a number is the same as itself but has no place
among the numbers.

Results:
* `same_iff_unsigned_eq`: what sameness forgets.
* `order_eq_lt_iff`, `order_eq_eq_iff`, `order_swap`: when a value is less than another one, when the
  order finds two values equal, and the order seen from the other side.
* `order_laws`: the laws of sameness and order together, and which values do not keep them.
-/
namespace ReactiveView

namespace Number

variable {a b : Number}

/-- Two signed counts are one if the counts are, and the signs where there is something to sign. -/
theorem signed_eq_iff (negative other : Bool) (m n : Nat) :
    (if negative then -(m : Int) else m) = (if other then -(n : Int) else n) ↔
      (negative && m != 0) = (other && n != 0) ∧ m = n := by
  cases negative <;> cases other <;> simp <;> grind

theorem place_infinite (negative : Bool) :
    (infinite negative).place = some (if negative then -(bound : Int) else bound) := rfl

theorem place_finite (negative : Bool) (size : Magnitude) :
    (finite negative size).place =
      some (if negative then -(size.units : Int) else size.units) := rfl

theorem place_eq_none_iff : a.place = none ↔ a = .nan := by
  cases a with
  | nan => exact iff_of_true rfl rfl
  | infinite negative => exact iff_of_false (Option.some_ne_none _) (fun h => by cases h)
  | finite negative size => exact iff_of_false (Option.some_ne_none _) (fun h => by cases h)

/-- The numbers with one place are one number but for the sign of zero. -/
theorem place_eq_place_iff : a.place = b.place ↔ a.unsigned = b.unsigned := by
  have hbound : (bound != 0) = true := by decide +kernel
  -- the infinities stand further out than any magnitude
  have hne : ∀ size : Magnitude, size.units ≠ bound :=
    fun size => Nat.ne_of_lt size.representable.1
  cases a with
  | nan =>
    rw [eq_comm, show nan.place = none from rfl, place_eq_none_iff]
    cases b <;> simp [unsigned]
  | infinite negative =>
    cases b with
    | nan => exact iff_of_false (Option.some_ne_none _) (fun h => by cases h)
    | infinite other =>
      rw [place_infinite, place_infinite, Option.some_inj, signed_eq_iff, hbound]
      simp [unsigned]
    | finite other size =>
      rw [place_infinite, place_finite, Option.some_inj, signed_eq_iff]
      exact iff_of_false (fun h => hne size h.2.symm) (fun h => by cases h)
  | finite negative size =>
    cases b with
    | nan => exact iff_of_false (Option.some_ne_none _) (fun h => by cases h)
    | infinite other =>
      rw [place_finite, place_infinite, Option.some_inj, signed_eq_iff]
      exact iff_of_false (fun h => hne size h.2) (fun h => by cases h)
    | finite other size' =>
      obtain ⟨u, hu⟩ := size
      obtain ⟨w, hw⟩ := size'
      rw [place_finite, place_finite, Option.some_inj, signed_eq_iff]
      simp [unsigned]

theorem order_eq_some_iff {o : Ordering} :
    a.order b = some o ↔ ∃ i j, a.place = some i ∧ b.place = some j ∧ compare i j = o := by
  unfold order
  cases a.place with
  | none => simp
  | some i =>
    cases b.place with
    | none => simp
    | some j => simp

theorem order_swap (a b : Number) : b.order a = (a.order b).map Ordering.swap := by
  unfold order
  cases a.place with
  | none => cases b.place <;> rfl
  | some i =>
    cases b.place with
    | none => rfl
    | some j => exact congrArg some Std.OrientedOrd.eq_swap

/-- The order finds two numbers equal if they are the same and are numbers. -/
theorem order_eq_eq_iff : a.order b = some .eq ↔ a.same b ∧ a ≠ .nan := by
  rw [order_eq_some_iff, same, beq_iff_eq, ne_eq, ← place_eq_none_iff]
  constructor
  · rintro ⟨i, j, hi, hj, hij⟩
    rw [hi, hj, Std.compare_eq_iff_eq.mp hij]
    exact ⟨rfl, nofun⟩
  · rintro ⟨hsame, hplace⟩
    obtain ⟨i, hi⟩ := Option.ne_none_iff_exists'.mp hplace
    exact ⟨i, i, hi, hsame ▸ hi, Std.compare_eq_iff_eq.mpr rfl⟩

end Number

namespace Value

/-! ## Sameness -/

mutual

/-- The value without the signs of its zeros. -/
def unsigned : Value → Value
  | .number n => .number n.unsigned
  | .list items => .list (unsignedItems items)
  | .record entries => .record (unsignedEntries entries)
  | v => v

/-- The elements of a list without the signs of their zeros. -/
def unsignedItems : List Value → List Value
  | [] => []
  | v :: rest => v.unsigned :: unsignedItems rest

/-- The entries of a record without the signs of their zeros. -/
def unsignedEntries : List (String × Value) → List (String × Value)
  | [] => []
  | (k, v) :: rest => (k, v.unsigned) :: unsignedEntries rest

end

mutual

/-- Sameness forgets the signs of zeros and nothing else. -/
theorem same_iff_unsigned_eq (a b : Value) : a.same b ↔ a.unsigned = b.unsigned := by
  cases a with
  | null => cases b <;> simp [same, unsigned]
  | bool x => cases b <;> simp [same, unsigned]
  | number n =>
    cases b with
    | number m => simp [same, unsigned, Number.same, Number.place_eq_place_iff]
    | _ => simp [same, unsigned]
  | text s => cases b <;> simp [same, unsigned]
  | list xs =>
    cases b with
    | list ys => simp [same, unsigned, sameItems_iff_unsignedItems_eq xs ys]
    | _ => simp [same, unsigned]
  | record es =>
    cases b with
    | record fs => simp [same, unsigned, sameEntries_iff_unsignedEntries_eq es fs]
    | _ => simp [same, unsigned]

theorem sameItems_iff_unsignedItems_eq (xs ys : List Value) :
    sameItems xs ys ↔ unsignedItems xs = unsignedItems ys := by
  cases xs with
  | nil => cases ys <;> simp [sameItems, unsignedItems]
  | cons x xs =>
    cases ys with
    | nil => simp [sameItems, unsignedItems]
    | cons y ys =>
      simp [sameItems, unsignedItems, same_iff_unsigned_eq x y,
        sameItems_iff_unsignedItems_eq xs ys]

theorem sameEntries_iff_unsignedEntries_eq (es fs : List (String × Value)) :
    sameEntries es fs ↔ unsignedEntries es = unsignedEntries fs := by
  cases es with
  | nil => cases fs <;> simp [sameEntries, unsignedEntries]
  | cons e es =>
    obtain ⟨k, x⟩ := e
    cases fs with
    | nil => simp [sameEntries, unsignedEntries]
    | cons f fs =>
      obtain ⟨l, y⟩ := f
      simp [sameEntries, unsignedEntries, same_iff_unsigned_eq x y,
        sameEntries_iff_unsignedEntries_eq es fs]

end

theorem same_equivalence : Equivalence fun a b : Value => a.same b where
  refl a := (same_iff_unsigned_eq a a).mpr rfl
  symm h := (same_iff_unsigned_eq _ _).mpr ((same_iff_unsigned_eq _ _).mp h).symm
  trans h h' := (same_iff_unsigned_eq _ _).mpr
    (((same_iff_unsigned_eq _ _).mp h).trans ((same_iff_unsigned_eq _ _).mp h'))

/-! ## Order -/

/-- When a value is less than another one: null is less than all else, and a scalar is less than one
of its kind with greater contents. -/
inductive Less : Value → Value → Prop
  | null {b : Value} (h : b ≠ .null) : Less .null b
  | bool : Less (.bool false) (.bool true)
  | number {n m : Number} {i j : Int} (hn : n.place = some i) (hm : m.place = some j) (h : i < j) :
    Less (.number n) (.number m)
  | text {s t : String} (h : s < t) : Less (.text s) (.text t)

theorem order_eq_lt_iff (a b : Value) : a.order b = some .lt ↔ Less a b := by
  constructor
  · intro h
    cases a with
    | null =>
      refine .null ?_
      rintro rfl
      cases h
    | bool x =>
      cases b with
      | bool y =>
        cases x <;> cases y
        · cases h
        · exact .bool
        · cases h
        · cases h
      | _ => cases h
    | number n =>
      cases b with
      | number m =>
        obtain ⟨i, j, hi, hj, hij⟩ := Number.order_eq_some_iff.mp h
        exact .number hi hj (Int.compare_eq_lt.mp hij)
      | _ => cases h
    | text s =>
      cases b with
      | text t => exact .text (compareOfLessAndEq_eq_lt.mp (Option.some.inj h))
      | _ => cases h
    | list xs => cases b <;> cases h
    | record es => cases b <;> cases h
  · intro h
    cases h with
    | null hne =>
      cases b with
      | null => exact absurd rfl hne
      | _ => rfl
    | bool => rfl
    | number hn hm h => exact Number.order_eq_some_iff.mpr ⟨_, _, hn, hm, Int.compare_eq_lt.mpr h⟩
    | text h => exact congrArg some (compareOfLessAndEq_eq_lt.mpr h)

/-- Null is less only, never greater, so the middle of a chain and its end are of one kind. -/
theorem Less.trans {a b c : Value} (h : Less a b) (h' : Less b c) : Less a c := by
  cases h with
  | null hne =>
    refine .null ?_
    rintro rfl
    cases h'
    exact hne rfl
  | bool => cases h'
  | number hn hm h =>
    cases h' with
    | number hm' hk h' =>
      obtain rfl := Option.some.inj (hm.symm.trans hm')
      exact .number hn hk (Int.lt_trans h h')
  | text h =>
    cases h' with
    | text h' => exact .text (String.lt_trans h h')

theorem order_swap (a b : Value) : b.order a = (a.order b).map Ordering.swap := by
  cases a with
  | null => cases b <;> rfl
  | bool x =>
    cases b with
    | bool y => exact congrArg some Std.OrientedOrd.eq_swap
    | _ => rfl
  | number n =>
    cases b with
    | number m => exact Number.order_swap n m
    | _ => rfl
  | text s =>
    cases b with
    | text t => exact congrArg some Std.OrientedOrd.eq_swap
    | _ => rfl
  | list xs => cases b <;> rfl
  | record es => cases b <;> rfl

/-- The order finds two values equal if they are the same, are scalars, and are not what is not a
number. -/
theorem order_eq_eq_iff (a b : Value) :
    a.order b = some .eq ↔ a.same b ∧ a.isContainer = false ∧ a ≠ .number .nan := by
  cases a with
  | null => cases b <;> simp [order, same, isContainer]
  | bool x =>
    cases b with
    | bool y => simp [order, same, isContainer]
    | _ => simp [order, same]
  | number n =>
    cases b with
    | number m => simp [order, same, isContainer, Number.order_eq_eq_iff]
    | _ => simp [order, same]
  | text s =>
    cases b with
    | text t => simp [order, same, isContainer]
    | _ => simp [order, same]
  | list xs => cases b <;> simp [order, isContainer]
  | record es => cases b <;> simp [order, isContainer]

/-- Sameness is an equivalence; the order is the other way round from the other side, and it is
transitive. It finds two values equal exactly if they are the same and have an order, so the values
at which being found equal is being the same are the scalars, what is not a number apart. -/
theorem order_laws (a b c : Value) :
    (Equivalence fun v w : Value => v.same w) ∧
    (a.order b = some .eq ↔ a.same b ∧ a.isContainer = false ∧ a ≠ .number .nan) ∧
    ((∀ w : Value, a.order w = some .eq ↔ a.same w) ↔
      a.isContainer = false ∧ a ≠ .number .nan) ∧
    b.order a = (a.order b).map Ordering.swap ∧
    (a.order b = some .lt → b.order c = some .lt → a.order c = some .lt) := by
  refine ⟨same_equivalence, order_eq_eq_iff a b, ⟨fun h => ?_, fun h w => ?_⟩, order_swap a b,
    fun h h' => ?_⟩
  · have hself := (h a).mpr (same_equivalence.refl a)
    exact ((order_eq_eq_iff a a).mp hself).2
  · rw [order_eq_eq_iff, and_iff_left h]
  · rw [order_eq_lt_iff] at h h' ⊢
    exact h.trans h'

/-- What is not a number, and a list, are the same as themselves and not found equal to themselves;
both zeros are found equal; null is below what is above false. -/
theorem order_laws_nan :
    ((number .nan).same (number .nan) ∧ (number .nan).order (number .nan) ≠ some .eq) ∧
      ((list [null]).same (list [null]) ∧ (list [null]).order (list [null]) ≠ some .eq) ∧
      (number (.ofUnits true 0)).order (number (.ofUnits false 0)) = some .eq ∧
      null.order (bool true) = some .lt := by
  obtain ⟨hsame, hnan, -⟩ := order_laws (number .nan) (number .nan) null
  obtain ⟨-, hlist, -⟩ := order_laws (list [null]) (list [null]) null
  obtain ⟨-, hzero, -⟩ := order_laws (number (.ofUnits true 0)) (number (.ofUnits false 0)) null
  obtain ⟨-, -, -, -, hbelow⟩ := order_laws null (bool false) (bool true)
  have hzeros : (number (.ofUnits true 0)).same (number (.ofUnits false 0)) := by decide +kernel
  have hne : Number.ofUnits true 0 ≠ .nan := by decide +kernel
  refine ⟨⟨hsame.refl _, fun h => ?_⟩, ⟨hsame.refl _, fun h => ?_⟩, ?_, hbelow rfl rfl⟩
  · exact (hnan.mp h).2.2 rfl
  · cases (hlist.mp h).2.1
  · exact hzero.mpr ⟨hzeros, rfl, fun h => hne (Value.number.inj h)⟩

end Value

end ReactiveView
