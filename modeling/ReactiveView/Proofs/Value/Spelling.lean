import ReactiveView.Proofs.Value.Write
/-!
# Spellings of a path

A record is read by keys, and a list by whatever denotes an index: an index, its numeral, or its
numeral with zeros or a sign in front. So several paths lead to one member. The data takes them all
for the same; their keys agree as long as they spell the indices of lists canonically.

Results:
* `set_respelled`: a write through any spelling is the same write.
* `keys_eq_iff`: plain spellings have the same keys, and no other ones.
-/
namespace ReactiveView.Value

variable {v w x : Value} {s t : Segment} {q r : Path}

/-- Two segments for one place in a value: one key of a record, or one element of a list, which may
be the one that comes next. -/
def SameStep : Value → Segment → Segment → Prop
  | .record _, s, t => s.key = t.key
  | .list items, s, t => ∃ n ≤ items.length, s.element? = some n ∧ t.element? = some n
  | _, _, _ => False

/-- Two paths that lead to one member, step by step. All members on the way are there; the last one
may be created by a write. -/
inductive SameMember : Value → Path → Path → Prop
  | last {v : Value} {s t : Segment} (h : SameStep v s t) : SameMember v [s] [t]
  | step {v w : Value} {s t : Segment} {q r : Path} (h : SameStep v s t)
      (hw : v.member? s = some w) (hrest : SameMember w q r) : SameMember v (s :: q) (t :: r)

/-- Whether a segment spells an index canonically, where it is for a list. -/
def isPlainStep : Value → Segment → Bool
  | .list _, s => s.isPlain
  | _, _ => true

/-- Whether a path spells the indices of the lists on its way canonically. -/
def isPlainAlong : Value → Path → Bool
  | _, [] => true
  | v, s :: rest => v.isPlainStep s && (v.member? s).all fun w => w.isPlainAlong rest

/-! ## One step -/

theorem SameStep.member? (h : SameStep v s t) : v.member? t = v.member? s := by
  cases v with
  | record entries => simp only [Value.member?, show s.key = t.key from h]
  | list items =>
    obtain ⟨n, -, hs, ht⟩ := h
    simp only [Value.member?, hs, ht]
  | null => exact h.elim
  | bool b => exact h.elim
  | number n => exact h.elim
  | text c => exact h.elim

theorem SameStep.replace (h : SameStep v s t) (x : Value) : v.replace t x = v.replace s x := by
  cases v with
  | record entries => simp only [Value.replace, show s.key = t.key from h]
  | list items =>
    obtain ⟨n, -, hs, ht⟩ := h
    simp only [Value.replace, hs, ht]
  | null => exact h.elim
  | bool b => exact h.elim
  | number n => exact h.elim
  | text c => exact h.elim

/-- Both segments take a write, and it is the same one. -/
theorem SameStep.put (h : SameStep v s t) (x : Value) (before before' : Path) :
    ∃ old v', v.put s x before = .ok (old, v') ∧ v.put t x before' = .ok (old, v') := by
  cases v with
  | record entries =>
    simp only [Value.put, show s.key = t.key from h]
    exact ⟨_, _, rfl, rfl⟩
  | list items =>
    obtain ⟨n, hn, hs, ht⟩ := h
    simp only [Value.put, hs, ht]
    by_cases hlt : n < items.length
    · simp only [dif_pos hlt]
      exact ⟨_, _, rfl, rfl⟩
    · simp only [dif_neg hlt, if_pos (Nat.le_antisymm hn (Nat.not_lt.mp hlt))]
      exact ⟨_, _, rfl, rfl⟩
  | null => exact h.elim
  | bool b => exact h.elim
  | number n => exact h.elim
  | text c => exact h.elim

/-! ## Whole paths -/

theorem SameMember.ne_nil (h : SameMember v q r) : q ≠ [] ∧ r ≠ [] := by
  cases h with
  | last _ => exact ⟨List.cons_ne_nil _ _, List.cons_ne_nil _ _⟩
  | step _ _ _ => exact ⟨List.cons_ne_nil _ _, List.cons_ne_nil _ _⟩

theorem setFrom_of_member? {rest : Path} {before : Path} {old w' : Value} (hrest : rest ≠ [])
    (hw : v.member? s = some w) (h : w.setFrom (before ++ [s]) rest x = .ok (old, w')) :
    v.setFrom before (s :: rest) x = .ok (old, v.replace s w') := by
  rw [setFrom_cons hrest hw, h]
  rfl

theorem setFrom_respelled (h : SameMember v q r) (x : Value) (before before' : Path) :
    ∃ old v', v.setFrom before q x = .ok (old, v') ∧ v.setFrom before' r x = .ok (old, v') := by
  induction h generalizing before before' with
  | last h =>
    rw [setFrom, setFrom]
    exact h.put x _ _
  | @step v w s t q r h hw hrest ih =>
    obtain ⟨old, w', hq, hr⟩ := ih (before ++ [s]) (before' ++ [t])
    refine ⟨old, v.replace s w', setFrom_of_member? hrest.ne_nil.1 hw hq, ?_⟩
    rw [← h.replace]
    exact setFrom_of_member? hrest.ne_nil.2 (h.member?.trans hw) hr

/-- A write through any spelling is the same write. -/
theorem set_respelled (h : SameMember v q r) (x : Value) :
    ∃ old v', v.set q x = .ok (old, v') ∧ v.set r x = .ok (old, v') :=
  setFrom_respelled h x [] []

/-- The segments with the key of a plain one are the plain ones. -/
theorem SameStep.key_eq_iff (h : SameStep v s t) (hs : v.isPlainStep s) :
    s.key = t.key ↔ v.isPlainStep t := by
  cases v with
  | list items =>
    obtain ⟨n, -, hn, hm⟩ := h
    exact ⟨fun hkey => isPlain_of_key_eq hkey.symm hs,
      fun ht => (key_of_element? hs hn).trans (key_of_element? ht hm).symm⟩
  | record entries => exact iff_of_true h rfl
  | null => exact h.elim
  | bool b => exact h.elim
  | number n => exact h.elim
  | text c => exact h.elim

/-- The spellings with the keys of a plain one are the plain ones. -/
theorem keys_eq_iff (h : SameMember v q r) (hq : v.isPlainAlong q) :
    q.keys = r.keys ↔ v.isPlainAlong r := by
  induction h with
  | @last v s t h =>
    have hs : v.isPlainStep s := (Bool.and_eq_true_iff.mp hq).1
    simp [Path.keys, isPlainAlong, h.key_eq_iff hs]
  | @step v w s t q r h hw hrest ih =>
    obtain ⟨hs, hq⟩ := Bool.and_eq_true_iff.mp hq
    rw [hw, Option.all_some] at hq
    have hbelow : Path.keys q = Path.keys r ↔ _ := ih hq
    simp only [Path.keys, List.map_cons, List.cons.injEq, isPlainAlong, h.member?, hw,
      Option.all_some, Bool.and_eq_true] at hbelow ⊢
    rw [h.key_eq_iff hs, hbelow]

end ReactiveView.Value
