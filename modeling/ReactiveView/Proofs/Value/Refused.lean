import ReactiveView.Proofs.Expression.Evaluation
import ReactiveView.Proofs.Value.Lens
/-!
# When a write is refused

A write goes along its path up to the last step, and then it is up to the container that it has come
to. It is refused on the way as soon as a step leads nowhere, and the error names the path as far as
that step. Otherwise a record takes every key, a list every index up to its end, and nothing else
takes a member at all; then the error names the whole path.

Results:
* `setFrom_of_missing`: a write that is refused on the way.
* `setFrom_of_at?`: a write that comes to its container does what the container does.
* `set_outcome`: how every write at every path ends.
-/
namespace ReactiveView

namespace Scope

variable {data data' old x : Value} {p : Path}

/-- A plain scope is the data that a write has made of it. -/
theorem assign_plain_of_ok (h : data.set p x = .ok (old, data')) :
    plain.assign p x data = .done () data' := by
  simp only [plain, Run.edit, id_eq, h]

/-- A plain scope is as it was when a write is refused. -/
theorem assign_plain_of_error {e : Error} (h : data.set p x = .error e) :
    plain.assign p x data = .failed e data := by
  simp only [plain, Run.edit, id_eq, h]

end Scope

namespace Value

variable {v w x : Value} {s : Segment}

/-- The first steps of a path lead nowhere, and there are more of them. -/
def Misses (data : Value) (p : Path) (n : Nat) : Prop :=
  0 < n ∧ n < p.length ∧ data.at? (p.take n) = none

/-! ## On the way -/

/-- A write is refused at the first step that leads nowhere, if it is not the last. -/
theorem setFrom_of_missing (before : Path) {front rest : Path} (hfront : v.at? front = some w)
    (hs : w.member? s = none) (hrest : rest ≠ []) :
    v.setFrom before (front ++ s :: rest) x
      = .error (.pathNotFound (Path.text (before ++ front ++ [s]))) := by
  induction front generalizing v before with
  | nil =>
    cases hfront
    rw [List.append_nil]
    exact setFrom_cons_of_none hrest hs
  | cons t front ih =>
    obtain ⟨u, hu, hw⟩ := Option.bind_eq_some_iff.mp hfront
    rw [List.cons_append, setFrom_cons (by simp) hu, ih _ hw, List.append_assoc before]
    rfl

/-- A write that comes to its container does what the container does, and fails as it does. -/
theorem setFrom_of_at? (before : Path) {front : Path} (hfront : v.at? front = some w) :
    (∀ r, w.put s x (before ++ front ++ [s]) = .ok r →
      ∃ r', v.setFrom before (front ++ [s]) x = .ok r') ∧
    ∀ e, w.put s x (before ++ front ++ [s]) = .error e →
      v.setFrom before (front ++ [s]) x = .error e := by
  induction front generalizing v before with
  | nil =>
    cases hfront
    rw [List.append_nil]
    exact ⟨fun r hr => ⟨r, hr⟩, fun _ he => he⟩
  | cons t front ih =>
    obtain ⟨u, hu, hw⟩ := Option.bind_eq_some_iff.mp hfront
    obtain ⟨hok, herror⟩ := ih (before ++ [t]) hw
    rw [show before ++ t :: front = before ++ [t] ++ front by simp, List.cons_append,
      setFrom_cons (by simp) hu]
    refine ⟨fun r hr => ?_, fun e he => ?_⟩
    · obtain ⟨r', hr'⟩ := hok r hr
      exact ⟨_, by rw [hr']; rfl⟩
    · rw [herror e he]
      rfl

/-! ## At the container -/

theorem put_list_of_lt {items : List Value} (hs : ∀ n, s.element? = some n → items.length < n)
    (x : Value) (path : Path) :
    (Value.list items).put s x path = .error (.pathNotFound path.text) := by
  unfold put
  cases hn : s.element? with
  | none => rfl
  | some n =>
    have hlt := hs n hn
    simp only [show ¬n < items.length by omega, show n ≠ items.length by omega, dif_neg, if_neg,
      not_false_eq_true]

theorem put_of_not_isContainer (hv : v.isContainer = false) (s : Segment) (x : Value)
    (path : Path) :
    v.put s x path = .error (.notAssignable path.text ("cannot set a member on " ++ v.kind)) := by
  cases v with
  | list items => cases hv
  | record entries => cases hv
  | _ => rfl

/-! ## Every write -/

/-- Where no first steps are missing before, the way goes as far as before a step. -/
theorem exists_at?_take {data : Value} {p : Path} {n : Nat} (hn : n < p.length)
    (hmisses : ∀ m, data.Misses p m → n < m) : ∃ c, data.at? (p.take n) = some c := by
  cases n with
  | zero => exact ⟨data, rfl⟩
  | succ n =>
    refine Option.ne_none_iff_exists'.mp fun hnone => ?_
    exact Nat.lt_irrefl _ (hmisses (n + 1) ⟨Nat.succ_pos n, hn, hnone⟩)

/-- The shortest first steps that are missing are what the error names. -/
theorem set_of_misses {data : Value} {p : Path} {n : Nat} (hn : data.Misses p n)
    (hfirst : ∀ m, data.Misses p m → n ≤ m) (x : Value) :
    data.set p x = .error (.pathNotFound (Path.text (p.take n))) := by
  obtain ⟨hpos, hlt, hnone⟩ := hn
  obtain ⟨n, rfl⟩ : ∃ k, n = k + 1 := ⟨n - 1, by omega⟩
  obtain ⟨c, hc⟩ := exists_at?_take (Nat.lt_of_succ_lt hlt) hfirst
  have htake : p.take (n + 1) = p.take n ++ [p[n]] := by
    rw [List.take_append_getElem]
  have hsplit : p = p.take n ++ p[n] :: p.drop (n + 1) := by
    rw [List.getElem_cons_drop, List.take_append_drop]
  have hstep : c.member? p[n] = none := by
    rw [htake, at?_append, hc] at hnone
    simpa [at?] using hnone
  have hrest : p.drop (n + 1) ≠ [] := by
    rw [ne_eq, List.drop_eq_nil_iff]
    omega
  have hset := setFrom_of_missing (x := x) [] hc hstep hrest
  rw [← hsplit, List.nil_append, ← htake] at hset
  exact hset

/-- How every write ends. If some first steps of the path are missing, with more of them to come,
the shortest such steps are not found. Otherwise the way leads to a container, or the path is empty
and there is none. A write to a record is done, as is a write to a list at an index up to its end and
one to the whole; other members of a list are not found, and what is no container takes no members. A
write that is refused leaves the data as it was. -/
theorem set_outcome (data : Value) (p : Path) (x : Value) :
    (∀ n, data.Misses p n → (∀ m, data.Misses p m → n ≤ m) →
      data.set p x = .error (.pathNotFound (Path.text (p.take n)))) ∧
    ((∀ n, ¬data.Misses p n) → (p = [] → ∃ r, data.set p x = .ok r) ∧
      ∀ front s, p = front ++ [s] → ∃ c, data.at? front = some c ∧
        (∀ entries, c = .record entries → ∃ r, data.set p x = .ok r) ∧
        (∀ items, c = .list items →
          (∀ n, s.element? = some n → n ≤ items.length → ∃ r, data.set p x = .ok r) ∧
          ((∀ n, s.element? = some n → items.length < n) →
            data.set p x = .error (.pathNotFound p.text))) ∧
        (c.isContainer = false → data.set p x
          = .error (.notAssignable p.text ("cannot set a member on " ++ c.kind)))) ∧
    ∀ e, data.set p x = .error e → Scope.plain.assign p x data = .failed e data := by
  refine ⟨fun n hn hfirst => set_of_misses hn hfirst x, fun hway => ⟨?_, ?_⟩, fun e he => ?_⟩
  · rintro rfl
    exact ⟨_, rfl⟩
  · rintro front s rfl
    obtain ⟨c, hc⟩ := exists_at?_take (n := front.length) (by simp)
      fun m hm => absurd hm (hway m)
    rw [List.take_left] at hc
    obtain ⟨hok, herror⟩ := setFrom_of_at? (s := s) (x := x) [] hc
    refine ⟨c, hc, ?_, ?_, fun hcontainer => herror _ (put_of_not_isContainer hcontainer s x _)⟩
    · rintro entries rfl
      exact hok _ rfl
    · rintro items rfl
      exact ⟨fun n hs hn => hok _ (put_list hs hn x _), fun hs => herror _ (put_list_of_lt hs x _)⟩
  · exact Scope.assign_plain_of_error he

end Value

end ReactiveView
