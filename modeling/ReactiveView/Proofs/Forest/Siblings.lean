import Mathlib.Data.List.Nodup
import ReactiveView.Proofs.Forest.Acyclic
/-!
# Below the children of a node

Two children of a node have nothing below them in common: the lines of parents from a common node
would meet at one of the two, which would then be above the other, and so above its own parent. So
what is below a node falls into rows, one for each child, and a walk that goes through one of them
after the other comes to no node twice.

Results:
* `Sound.eq_of_spans`: what is below two children of a node is below one of them only.
* `nodup_ancestors`, `nodup_descendants`: no node is above or below another one twice.
-/
namespace ReactiveView.Forest

variable {α : Type} {f : Forest α}

/-- A node, and what is below it. -/
def Spans (f : Forest α) (i j : Nat) : Prop := i = j ∨ f.Above i j

theorem Spans.of_parent? {i c j : Nat} (h : f.Spans c j) (hc : f.parent? c = some i) :
    f.Above i j := by
  rcases h with rfl | h
  · exact .parent hc
  · exact (Above.parent hc).trans h

theorem Spans.lt_size {i j : Nat} (h : f.Spans i j) (hi : i < f.size) : j < f.size := by
  rcases h with rfl | h
  · exact hi
  · obtain ⟨p, hp⟩ := h.exists_parent
    exact lt_of_parent? hp

/-- Of two nodes that are above a third one, one is above the other. -/
theorem Above.comparable {a b i : Nat} (ha : f.Above a i) (hb : f.Above b i) :
    f.Spans a b ∨ f.Above b a := by
  induction ha with
  | parent hp =>
    cases hb with
    | parent hp' => exact .inl (.inl (Option.some.inj (hp.symm.trans hp')))
    | step hp' hb =>
      cases hp.symm.trans hp'
      exact .inr hb
  | step hp ha ih =>
    cases hb with
    | parent hp' =>
      cases hp.symm.trans hp'
      exact .inl (.inr ha)
    | step hp' hb =>
      cases hp.symm.trans hp'
      exact ih hb

/-- No node below another one is above a child of this one. -/
theorem Acyclic.not_above_child (hf : f.Acyclic) {i k c : Nat} (hc : f.parent? c = some i)
    (hik : f.Above i k) : ¬f.Above k c := by
  intro h
  cases h with
  | parent hp =>
    cases hc.symm.trans hp
    exact hf i hik
  | step hp h =>
    cases hc.symm.trans hp
    exact hf i (hik.trans h)

/-- No child of a node is above another one. -/
theorem Sound.not_above_sibling (hf : f.Sound) {i c d : Nat} (hc : f.parent? c = some i)
    (hd : f.parent? d = some i) : ¬f.Above c d :=
  hf.acyclic.not_above_child hd (.parent hc)

/-- What is below two children of a node is below one of them only. -/
theorem Sound.eq_of_spans (hf : f.Sound) {i c d j : Nat} (hc : f.parent? c = some i)
    (hd : f.parent? d = some i) (hcj : f.Spans c j) (hdj : f.Spans d j) : c = d := by
  rcases hcj with rfl | hcj <;> rcases hdj with rfl | hdj
  · rfl
  · exact absurd hdj (hf.not_above_sibling hd hc)
  · exact absurd hcj (hf.not_above_sibling hc hd)
  · rcases hcj.comparable hdj with (heq | h) | h
    · exact heq
    · exact absurd h (hf.not_above_sibling hc hd)
    · exact absurd h (hf.not_above_sibling hd hc)

/-- What is below a node does not depend on the links elsewhere. -/
theorem descendantsWithin_congr {β : Type} {f' : Forest β} (hf : f.Linked) (n : Nat) {i : Nat}
    (h : ∀ j, f.Spans i j → f'.children j = f.children j) :
    f'.descendantsWithin n i = f.descendantsWithin n i := by
  induction n generalizing i with
  | zero => rfl
  | succ n ih =>
    rw [descendantsWithin, descendantsWithin, h i (.inl rfl), List.flatMap_def, List.flatMap_def]
    refine congrArg List.flatten (List.map_congr_left fun c hc => congrArg (c :: ·) (ih fun j hj => ?_))
    exact h j (.inr (hj.of_parent? ((hf.iff i c).mp hc)))

/-! ## No node twice -/

theorem nodup_ancestors (hf : f.Acyclic) (i : Nat) : (f.ancestors i).Nodup :=
  (List.nodup_cons.mp (nodup_cons_ancestorsWithin hf f.size i)).2

/-- A child, and what is below it as far as a number of levels. -/
theorem spans_of_mem_descendantsWithin (hf : f.Linked) {n c j : Nat}
    (h : j ∈ c :: f.descendantsWithin n c) : f.Spans c j := by
  rcases List.mem_cons.mp h with rfl | h
  · exact .inl rfl
  · exact .inr (above_of_mem_descendantsWithin hf h)

theorem nodup_descendantsWithin (hf : f.Sound) (n i : Nat) : (f.descendantsWithin n i).Nodup := by
  -- on the levels: a row for each child, without duplicates, and no two rows meet
  induction n generalizing i with
  | zero => exact List.nodup_nil
  | succ n ih =>
    have hparent : ∀ c ∈ f.children i, f.parent? c = some i :=
      fun c hc => (hf.linked.iff i c).mp hc
    have hrow : ∀ c, (c :: f.descendantsWithin n c).Nodup := fun c =>
      List.nodup_cons.mpr ⟨fun h => hf.acyclic c (above_of_mem_descendantsWithin hf.linked h), ih c⟩
    have hapart : ∀ c ∈ f.children i, ∀ d ∈ f.children i, c ≠ d →
        List.Disjoint (c :: f.descendantsWithin n c) (d :: f.descendantsWithin n d) := by
      intro c hc d hd hne j hcj hdj
      exact hne (hf.eq_of_spans (hparent c hc) (hparent d hd)
        (spans_of_mem_descendantsWithin hf.linked hcj)
        (spans_of_mem_descendantsWithin hf.linked hdj))
    rw [descendantsWithin]
    exact List.nodup_flatMap.mpr ⟨fun c _ => hrow c,
      (hf.linked.nodup i).pairwise_of_forall_ne hapart⟩

theorem nodup_descendants (hf : f.Sound) (i : Nat) : (f.descendants i).Nodup :=
  nodup_descendantsWithin hf f.size i

end ReactiveView.Forest
