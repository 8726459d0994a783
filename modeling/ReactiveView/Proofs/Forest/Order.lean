import ReactiveView.Proofs.Forest.Siblings
/-!
# The order of the nodes below a node

A node comes before all that is below it, and what a child spans comes before what a later child of
the same node spans. This is said by the links alone, without a walk. The nodes below a node are
listed in this order, and no other list of the same nodes is in this order, because of two nodes at
most one comes before the other.

Results:
* `Precedes.asymm`: of two nodes at most one comes before the other.
* `pairwise_descendants`: the nodes below a node are in order.
* `eq_of_pairwise`: there is one way only to list some nodes in order.
-/
namespace ReactiveView.Forest

variable {α : Type} {f : Forest α}

/-- A node comes before another one: it is above it, or an earlier child of some node spans it and a
later child of this node spans the other one. -/
inductive Precedes (f : Forest α) (i j : Nat) : Prop
  | above (h : f.Above i j) : Precedes f i j
  | beside {p c d : Nat} (hcd : [c, d].Sublist (f.children p)) (hi : f.Spans c i)
      (hj : f.Spans d j) : Precedes f i j

theorem Spans.trans {i j k : Nat} (h : f.Spans i j) (h' : f.Spans j k) : f.Spans i k := by
  rcases h with rfl | h
  · exact h'
  · rcases h' with rfl | h'
    · exact .inr h
    · exact .inr (h.trans h')

/-- Of two entries of a list without duplicates, at most one comes before the other. -/
theorem not_sublist_swap {l : List Nat} (hl : l.Nodup) {c d : Nat} (h : [c, d].Sublist l) :
    ¬[d, c].Sublist l := by
  induction l with
  | nil => cases h
  | cons x rest ih =>
    obtain ⟨hx, hrest⟩ := List.nodup_cons.mp hl
    intro h'
    cases h with
    | cons _ h =>
      cases h' with
      | cons _ h' => exact ih hrest h h'
      | cons_cons _ h' => exact hx (h.subset (List.mem_cons_of_mem _ List.mem_cons_self))
    | cons_cons _ h =>
      cases h' with
      | cons _ h' => exact hx (h'.subset (List.mem_cons_of_mem _ List.mem_cons_self))
      | cons_cons _ h' => exact hx (h.subset List.mem_cons_self)

/-- Two children in order are two children, and not one. -/
theorem Sound.ne_of_sublist (hf : f.Sound) {p c d : Nat} (h : [c, d].Sublist (f.children p)) :
    f.parent? c = some p ∧ f.parent? d = some p ∧ c ≠ d := by
  refine ⟨(hf.linked.iff p c).mp (h.subset List.mem_cons_self),
    (hf.linked.iff p d).mp (h.subset (List.mem_cons_of_mem _ List.mem_cons_self)), ?_⟩
  rintro rfl
  exact not_sublist_swap (hf.linked.nodup p) h h

/-- Of two nodes that two children of one node span, neither spans the other. -/
theorem Sound.not_spans_of_beside (hf : f.Sound) {p c d i j : Nat}
    (hcd : [c, d].Sublist (f.children p)) (hi : f.Spans c i) (hj : f.Spans d j) :
    ¬f.Spans i j ∧ ¬f.Spans j i := by
  obtain ⟨hc, hd, hne⟩ := hf.ne_of_sublist hcd
  exact ⟨fun h => hne (hf.eq_of_spans hc hd (hi.trans h) hj),
    fun h => hne (hf.eq_of_spans hc hd hi (hj.trans h))⟩

/-- A node that is above two nodes is not below the node whose children part them. -/
theorem Sound.not_above_of_parted (hf : f.Sound) {p q c d i j : Nat}
    (hcd : [c, d].Sublist (f.children p)) (hi : f.Spans c i) (hj : f.Spans d j)
    (hqi : f.Above q i) (hqj : f.Above q j) : ¬f.Above p q := by
  obtain ⟨hc, hd, hne⟩ := hf.ne_of_sublist hcd
  intro hpq
  -- the child of `p` on the way to `q` is both of them
  obtain ⟨e, he, heq⟩ := hpq.top
  have hcq : c = e := hf.eq_of_spans hc he hi (Spans.trans heq (.inr hqi))
  have hdq : d = e := hf.eq_of_spans hd he hj (Spans.trans heq (.inr hqj))
  exact hne (hcq.trans hdq.symm)

/-- Of two nodes at most one comes before the other. -/
theorem Precedes.asymm (hf : f.Sound) {i j : Nat} (h : f.Precedes i j) : ¬f.Precedes j i := by
  intro h'
  cases h with
  | above hij =>
    cases h' with
    | above hji => exact hf.acyclic i (hij.trans hji)
    | beside hcd hj hi => exact (hf.not_spans_of_beside hcd hj hi).2 (.inr hij)
  | @beside p c d hcd hi hj =>
    cases h' with
    | above hji => exact (hf.not_spans_of_beside hcd hi hj).2 (.inr hji)
    | @beside q c' d' hcd' hj' hi' =>
      -- both pairs of children have one parent, and so they are the same pair, turned around
      obtain ⟨hc, hd, -⟩ := hf.ne_of_sublist hcd
      obtain ⟨hc', hd', -⟩ := hf.ne_of_sublist hcd'
      have hpi : f.Above p i := hi.of_parent? hc
      have hpj : f.Above p j := hj.of_parent? hd
      have hqi : f.Above q i := hi'.of_parent? hd'
      have hqj : f.Above q j := hj'.of_parent? hc'
      rcases hpi.comparable hqi with (rfl | hpq) | hqp
      · obtain rfl := hf.eq_of_spans hc hd' hi hi'
        obtain rfl := hf.eq_of_spans hd hc' hj hj'
        exact not_sublist_swap (hf.linked.nodup p) hcd hcd'
      · exact hf.not_above_of_parted hcd hi hj hqi hqj hpq
      · exact hf.not_above_of_parted hcd' hj' hi' hpj hpi hqp

theorem Precedes.ne (hf : f.Sound) {i j : Nat} (h : f.Precedes i j) : i ≠ j := by
  rintro rfl
  exact h.asymm hf h

/-! ## Lists in order -/

theorem pairwise_descendantsWithin (hf : f.Sound) (n i : Nat) :
    (f.descendantsWithin n i).Pairwise f.Precedes := by
  -- on the levels: each child before its row, and the rows in the order of the children
  induction n generalizing i with
  | zero => exact .nil
  | succ n ih =>
    have hrow : ∀ c, (c :: f.descendantsWithin n c).Pairwise f.Precedes := fun c =>
      .cons (fun j hj => .above (above_of_mem_descendantsWithin hf.linked hj)) (ih c)
    have hrows : (f.children i).Pairwise fun c d => ∀ j ∈ c :: f.descendantsWithin n c,
        ∀ k ∈ d :: f.descendantsWithin n d, f.Precedes j k := by
      refine List.pairwise_iff_forall_sublist.mpr fun {c d} hcd j hj k hk => ?_
      exact .beside hcd (spans_of_mem_descendantsWithin hf.linked hj)
        (spans_of_mem_descendantsWithin hf.linked hk)
    rw [descendantsWithin]
    exact List.pairwise_flatMap.mpr ⟨fun c _ => hrow c, hrows⟩

/-- The nodes below a node are in order. -/
theorem pairwise_descendants (hf : f.Sound) (i : Nat) :
    (f.descendants i).Pairwise f.Precedes := pairwise_descendantsWithin hf f.size i

theorem nodup_of_pairwise (hf : f.Sound) {is : List Nat} (h : is.Pairwise f.Precedes) :
    is.Nodup := h.imp fun h => h.ne hf

/-- There is one way only to list some nodes in order. -/
theorem eq_of_pairwise (hf : f.Sound) {is js : List Nat} (his : is.Pairwise f.Precedes)
    (hjs : js.Pairwise f.Precedes) (h : ∀ i, i ∈ is ↔ i ∈ js) : is = js := by
  have hperm : is.Perm js :=
    (List.perm_ext_iff_of_nodup (nodup_of_pairwise hf his) (nodup_of_pairwise hf hjs)).mpr h
  exact hperm.eq_of_pairwise (fun i j _ _ hij hji => absurd hji (hij.asymm hf)) his hjs

end ReactiveView.Forest
