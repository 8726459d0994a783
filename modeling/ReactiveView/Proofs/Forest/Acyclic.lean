import Mathlib.Data.List.Perm.Subperm
import ReactiveView.Proofs.Forest.Links
/-!
# No node above itself

The links of a forest make no circle as long as no node is attached to itself or below itself. Then
every line of parents ends at a node without a parent, and since its nodes are distinct it is
shorter than the forest. So the walks that the forest bounds by its size see everything there is to
see, which is what the check for circles relies on.

Results:
* `acyclic_attach`: a node may be moved wherever it is not above.
* `isAtOrAbove_iff`: the check for circles finds them all.
* `getLast?_ancestors_iff`: which node is the last one above another.
* `ancestors_eq`, `descendants_eq`: what is above and below a node, without a bound.
* `mem_ancestors_iff`, `mem_descendants_iff`: above and below are two sides of one relation.
* `popped_descendants`: a walk with a stack finds the nodes below in the same order.
-/
namespace ReactiveView.Forest

variable {α β : Type} {f : Forest α} {f' : Forest β}

/-- A node is above another one: its parent, or above its parent. -/
inductive Above (f : Forest α) (a : Nat) : Nat → Prop
  | parent {i : Nat} (h : f.parent? i = some a) : Above f a i
  | step {i p : Nat} (h : f.parent? i = some p) (hp : Above f a p) : Above f a i

/-- No node is above itself. -/
def Acyclic (f : Forest α) : Prop := ∀ i, ¬f.Above i i

/-- Both ends of every link agree, and no node is above itself. -/
structure Sound (f : Forest α) : Prop where
  linked : f.Linked
  acyclic : f.Acyclic

/-! ## Above and below -/

theorem Above.trans {a b i : Nat} (h : f.Above a b) (h' : f.Above b i) : f.Above a i := by
  induction h' with
  | parent hp => exact .step hp h
  | step hp _ ih => exact .step hp ih

theorem Above.exists_parent {a i : Nat} (h : f.Above a i) : ∃ p, f.parent? i = some p := by
  cases h with
  | parent hp => exact ⟨a, hp⟩
  | step hp _ => exact ⟨_, hp⟩

/-- The way down from a node starts at one of its children. -/
theorem Above.top {a i : Nat} (h : f.Above a i) :
    ∃ c, f.parent? c = some a ∧ (c = i ∨ f.Above c i) := by
  induction h with
  | @parent i hp => exact ⟨i, hp, .inl rfl⟩
  | step hp _ ih =>
    obtain ⟨c, hc, hci⟩ := ih
    rcases hci with rfl | hci
    · exact ⟨c, hc, .inr (.parent hp)⟩
    · exact ⟨c, hc, .inr (.step hp hci)⟩

theorem Above.exists_child {a i : Nat} (h : f.Above a i) : ∃ c, f.parent? c = some a := by
  obtain ⟨c, hc, -⟩ := h.top
  exact ⟨c, hc⟩

/-- What is above a node is a node: it has a child. -/
theorem Above.lt_size (hf : f.Linked) {a i : Nat} (h : f.Above a i) : a < f.size := by
  obtain ⟨c, hc⟩ := h.exists_child
  exact lt_of_mem_children ((hf.iff a c).mpr hc)

/-- Where parents are older than their children, so is all that is above a node. -/
theorem Above.lt (hold : ∀ c p, f.parent? c = some p → p < c) {a i : Nat} (h : f.Above a i) :
    a < i := by
  induction h with
  | parent hp => exact hold _ _ hp
  | step hp _ ih => exact Nat.lt_trans ih (hold _ _ hp)

/-- Where parents of old nodes are old, so is all that is above an old node. -/
theorem Above.lt_of_closed {n : Nat} (hold : ∀ c p, c < n → f.parent? c = some p → p < n)
    {a i : Nat} (h : f.Above a i) (hi : i < n) : a < n := by
  induction h with
  | parent hp => exact hold _ _ hi hp
  | step hp _ ih => exact ih (hold _ _ hi hp)

theorem Above.mono (hle : ∀ i p, f'.parent? i = some p → f.parent? i = some p) {a i : Nat}
    (h : f'.Above a i) : f.Above a i := by
  induction h with
  | parent hp => exact .parent (hle _ _ hp)
  | step hp _ ih => exact .step (hle _ _ hp) ih

/-! ## Changes that make no circle -/

/-- A forest without links that another one does not have makes no circle if that one makes none. -/
theorem Acyclic.mono (hf : f.Acyclic) (hle : ∀ i p, f'.parent? i = some p → f.parent? i = some p) :
    f'.Acyclic := fun i h => hf i (h.mono hle)

theorem acyclic_of_parent?_none (h : ∀ i, f.parent? i = none) : f.Acyclic := by
  intro i habove
  obtain ⟨p, hp⟩ := habove.exists_parent
  rw [h] at hp
  cases hp

theorem acyclic_of_older (hold : ∀ c p, f.parent? c = some p → p < c) : f.Acyclic :=
  fun i h => Nat.lt_irrefl i (h.lt hold)

/-- What is above what after a node has been moved: what was so before, or a way that leads through
the new link. -/
theorem above_attach {p c a i : Nat} (hc : c < f.size) (h : (f.attach p c).Above a i) :
    f.Above a i ∨ (a = p ∨ f.Above a p) ∧ (i = c ∨ f.Above c i) := by
  induction h with
  | @parent i hp =>
    rw [parent?_attach hc] at hp
    split at hp
    · next heq =>
      cases hp
      exact .inr ⟨.inl rfl, .inl heq.symm⟩
    · exact .inl (.parent hp)
  | @step i q hq _ ih =>
    rw [parent?_attach hc] at hq
    split at hq
    · next heq =>
      cases hq
      rcases ih with hap | ⟨hap, -⟩
      · exact .inr ⟨.inr hap, .inl heq.symm⟩
      · exact .inr ⟨hap, .inl heq.symm⟩
    · rcases ih with haq | ⟨hap, hqc⟩
      · exact .inl (.step hq haq)
      · refine .inr ⟨hap, .inr ?_⟩
        rcases hqc with rfl | hcq
        · exact .parent hq
        · exact .step hq hcq

/-- A node may be moved to any other one that it is not above. -/
theorem acyclic_attach (hf : f.Acyclic) {p c : Nat} (hc : c < f.size) (hne : c ≠ p)
    (hnot : ¬f.Above c p) : (f.attach p c).Acyclic := by
  intro i h
  rcases above_attach hc h with hi | ⟨hip, hci⟩
  · exact hf i hi
  · rcases hip with rfl | hip <;> rcases hci with rfl | hci
    · exact hne rfl
    · exact hnot hci
    · exact hnot hip
    · exact hnot (hci.trans hip)

/-! ## Lines of parents -/

theorem above_of_mem_ancestorsWithin {n i a : Nat} (h : a ∈ f.ancestorsWithin n i) :
    f.Above a i := by
  induction n generalizing i with
  | zero => cases h
  | succ n ih =>
    rw [ancestorsWithin] at h
    split at h
    · cases h
    · next p hp =>
      rcases List.mem_cons.mp h with rfl | h
      · exact .parent hp
      · exact .step hp (ih h)

/-- The nodes on a line of parents are distinct. -/
theorem nodup_cons_ancestorsWithin (hf : f.Acyclic) (n i : Nat) :
    (i :: f.ancestorsWithin n i).Nodup := by
  induction n generalizing i with
  | zero => exact List.nodup_cons.mpr ⟨List.not_mem_nil, List.nodup_nil⟩
  | succ n ih =>
    refine List.nodup_cons.mpr ⟨fun h => hf i (above_of_mem_ancestorsWithin h), ?_⟩
    rw [ancestorsWithin]
    split
    · exact List.nodup_nil
    · exact ih _

/-- So a line of parents is shorter than the forest. -/
theorem length_ancestorsWithin_lt (hf : f.Sound) (n : Nat) {i : Nat} (hi : i < f.size) :
    (f.ancestorsWithin n i).length < f.size := by
  have hsub : i :: f.ancestorsWithin n i ⊆ List.range f.size := by
    intro j hj
    rw [List.mem_range]
    rcases List.mem_cons.mp hj with rfl | hj
    · exact hi
    · exact (above_of_mem_ancestorsWithin hj).lt_size hf.linked
  have hle := ((nodup_cons_ancestorsWithin hf.acyclic n i).subperm hsub).length_le
  rw [List.length_cons, List.length_range] at hle
  omega

/-- A line of parents that has ended does not get longer. -/
theorem ancestorsWithin_of_length_lt {n m i : Nat} (h : (f.ancestorsWithin n i).length < n)
    (hm : n ≤ m) : f.ancestorsWithin m i = f.ancestorsWithin n i := by
  induction n generalizing i m with
  | zero => cases h
  | succ n ih =>
    obtain ⟨m, rfl⟩ : ∃ k, m = k + 1 := ⟨m - 1, by omega⟩
    rw [ancestorsWithin] at h
    rw [ancestorsWithin, ancestorsWithin]
    cases hp : f.parent? i with
    | none => rfl
    | some p =>
      simp only [hp, List.length_cons] at h
      exact congrArg (p :: ·) (ih (by omega) (by omega))

theorem ancestorsWithin_eq (hf : f.Sound) {n : Nat} (hn : f.size ≤ n) (i : Nat) :
    f.ancestorsWithin n i = f.ancestors i := by
  by_cases hi : i < f.size
  · exact ancestorsWithin_of_length_lt (length_ancestorsWithin_lt hf f.size hi) hn
  · have hnone : f.parent? i = none := parent?_of_size_le (by omega)
    have hnil : ∀ m, f.ancestorsWithin m i = [] := fun m => by
      cases m with
      | zero => rfl
      | succ m => rw [ancestorsWithin, hnone]
    rw [ancestors, hnil, hnil]

/-- The nodes above a node are its parent and the nodes above that. -/
theorem ancestors_eq (hf : f.Sound) (i : Nat) : f.ancestors i =
    match f.parent? i with
    | none => []
    | some p => p :: f.ancestors p := by
  rw [← ancestorsWithin_eq hf (Nat.le_succ f.size) i, ancestorsWithin]
  rfl

/-- The ancestors of a node are the nodes above it. -/
theorem mem_ancestors_iff (hf : f.Sound) {a i : Nat} : a ∈ f.ancestors i ↔ f.Above a i := by
  constructor
  · exact above_of_mem_ancestorsWithin
  · intro h
    induction h with
    | parent hp =>
      rw [ancestors_eq hf, hp]
      exact List.mem_cons_self
    | step hp _ ih =>
      rw [ancestors_eq hf, hp]
      exact List.mem_cons_of_mem _ ih

/-- The nodes above a node run through each of them, and on to the nodes above that one. -/
theorem exists_ancestors_eq (hf : f.Sound) {a i : Nat} (h : f.Above a i) :
    ∃ between, f.ancestors i = between ++ a :: f.ancestors a := by
  induction h with
  | parent hp => exact ⟨[], by rw [ancestors_eq hf, hp]; rfl⟩
  | @step i p hp _ ih =>
    obtain ⟨between, hbetween⟩ := ih
    exact ⟨p :: between, by rw [ancestors_eq hf, hp, List.cons_append, ← hbetween]⟩

/-- A node is the last one above those below it just if it has no parent: otherwise the line goes on
above it, and never comes back to it. -/
theorem getLast?_ancestors_iff (hf : f.Sound) {a i : Nat} (h : f.Above a i) :
    (f.ancestors i).getLast? = some a ↔ f.parent? a = none := by
  obtain ⟨between, hbetween⟩ := exists_ancestors_eq hf h
  rw [hbetween, List.getLast?_append_cons]
  cases hp : f.parent? a with
  | none => simp [ancestors_eq hf a, hp]
  | some p =>
    rw [ancestors_eq hf a, hp, List.getLast?_cons_cons]
    refine iff_of_false (fun hlast => ?_) (Option.some_ne_none p)
    have hmem : a ∈ f.ancestors a := by
      rw [ancestors_eq hf a, hp]
      exact List.mem_of_getLast? hlast
    exact hf.acyclic a ((mem_ancestors_iff hf).mp hmem)

/-- The check for circles finds them all. -/
theorem isAtOrAbove_iff (hf : f.Sound) {a i : Nat} :
    f.isAtOrAbove a i ↔ a = i ∨ f.Above a i := by
  rw [isAtOrAbove, Bool.or_eq_true, beq_iff_eq, List.contains_iff_mem, mem_ancestors_iff hf, eq_comm]

/-- A node without children is above no other one. -/
theorem isAtOrAbove_eq_false (hf : f.Linked) {a i : Nat} (ha : f.children a = []) (hi : i ≠ a) :
    f.isAtOrAbove a i = false := by
  have hmem : a ∉ f.ancestors i := by
    intro h
    obtain ⟨c, hc⟩ := (above_of_mem_ancestorsWithin h).exists_child
    have := (hf.iff a c).mpr hc
    simp [ha] at this
  simp [isAtOrAbove, hi, hmem]

/-! ## What is below a node -/

/-- How far a node is from the top. -/
def depth (f : Forest α) (i : Nat) : Nat := (f.ancestors i).length

theorem depth_of_parent? (hf : f.Sound) {c p : Nat} (h : f.parent? c = some p) :
    f.depth c = f.depth p + 1 := by
  rw [depth, ancestors_eq hf, h]
  rfl

theorem depth_lt_size (hf : f.Sound) {i : Nat} (h : i < f.size) : f.depth i < f.size :=
  length_ancestorsWithin_lt hf f.size h

theorem children_of_size_le {i : Nat} (h : f.size ≤ i) : f.children i = [] := by
  rw [children, node?_eq_none_of_le h]
  rfl

/-- A node as deep as the forest is large is not there, and has no children. -/
theorem children_of_size_le_depth (hf : f.Sound) {i : Nat} (h : f.size ≤ f.depth i) :
    f.children i = [] :=
  children_of_size_le (Nat.le_of_not_lt fun hi => Nat.not_lt.mpr h (depth_lt_size hf hi))

/-- Walks that may go down to the greatest depth do not depend on how far they may go. -/
theorem descendantsWithin_eq (hf : f.Sound) {i n m : Nat} (hn : f.size ≤ f.depth i + n)
    (hm : f.size ≤ f.depth i + m) : f.descendantsWithin n i = f.descendantsWithin m i := by
  induction n generalizing i m with
  | zero =>
    cases m with
    | zero => rfl
    | succ m =>
      rw [descendantsWithin, descendantsWithin, children_of_size_le_depth hf hn]
      rfl
  | succ n ih =>
    cases m with
    | zero =>
      rw [descendantsWithin, descendantsWithin, children_of_size_le_depth hf hm]
      rfl
    | succ m =>
      rw [descendantsWithin, descendantsWithin, List.flatMap_def, List.flatMap_def]
      refine congrArg List.flatten (List.map_congr_left fun c hc => ?_)
      have hdepth := depth_of_parent? hf ((hf.linked.iff i c).mp hc)
      rw [ih (i := c) (m := m) (by omega) (by omega)]

/-- The nodes below a node are its children in order, each before the nodes below it. -/
theorem descendants_eq (hf : f.Sound) (i : Nat) :
    f.descendants i = (f.children i).flatMap fun c => c :: f.descendants c := by
  have h : f.descendants i = f.descendantsWithin (f.size + 1) i :=
    descendantsWithin_eq hf (by omega) (by omega)
  rw [h, descendantsWithin]
  rfl

theorem above_of_mem_descendantsWithin (hf : f.Linked) {n a i : Nat}
    (h : i ∈ f.descendantsWithin n a) : f.Above a i := by
  induction n generalizing a with
  | zero => cases h
  | succ n ih =>
    rw [descendantsWithin] at h
    obtain ⟨c, hc, hi⟩ := List.mem_flatMap.mp h
    have hca : f.Above a c := .parent ((hf.iff a c).mp hc)
    rcases List.mem_cons.mp hi with rfl | hi
    · exact hca
    · exact hca.trans (ih hi)

theorem mem_descendantsWithin_of_above (hf : f.Sound) {a i n : Nat} (h : f.Above a i)
    (hn : f.size ≤ f.depth a + n) : i ∈ f.descendantsWithin n a := by
  induction n generalizing a with
  | zero => exact absurd (depth_lt_size hf (h.lt_size hf.linked)) (by omega)
  | succ n ih =>
    obtain ⟨c, hc, hci⟩ := h.top
    have hdepth := depth_of_parent? hf hc
    rw [descendantsWithin]
    refine List.mem_flatMap.mpr ⟨c, (hf.linked.iff a c).mpr hc, ?_⟩
    rcases hci with rfl | hci
    · exact List.mem_cons_self
    · exact List.mem_cons_of_mem _ (ih hci (by omega))

/-- The descendants of a node are the nodes that it is above. -/
theorem mem_descendants_iff (hf : f.Sound) {a i : Nat} : i ∈ f.descendants a ↔ f.Above a i :=
  ⟨above_of_mem_descendantsWithin hf.linked, fun h => mem_descendantsWithin_of_above hf h (by omega)⟩

/-- What a walk with a stack finds: the top is taken off, and its children are put on in its place,
the first of them on top. -/
inductive Popped (f : Forest α) : List Nat → List Nat → Prop
  | done : Popped f [] []
  | pop {i : Nat} {stack found : List Nat} (h : Popped f (f.children i ++ stack) found) :
      Popped f (i :: stack) (i :: found)

/-- What is on the stack is found together with what is below it, before what lies deeper in the
stack. -/
theorem popped_append (hf : f.Sound) {n : Nat} {cs stack found : List Nat}
    (hn : ∀ c ∈ cs, f.size ≤ f.depth c + n) (h : f.Popped stack found) :
    f.Popped (cs ++ stack) ((cs.flatMap fun c => c :: f.descendants c) ++ found) := by
  induction n generalizing cs stack found with
  | zero =>
    induction cs with
    | nil => exact h
    | cons c cs ihcs =>
      have hrest := ihcs fun d hd => hn d (List.mem_cons_of_mem _ hd)
      have hleaf := children_of_size_le_depth hf (hn c List.mem_cons_self)
      rw [List.flatMap_cons, descendants_eq hf, hleaf]
      refine .pop ?_
      rw [hleaf]
      exact hrest
  | succ n ih =>
    induction cs with
    | nil => exact h
    | cons c cs ihcs =>
      have hrest := ihcs fun d hd => hn d (List.mem_cons_of_mem _ hd)
      have hbelow : ∀ d ∈ f.children c, f.size ≤ f.depth d + n := by
        intro d hd
        have hdepth := depth_of_parent? hf ((hf.linked.iff c d).mp hd)
        have := hn c List.mem_cons_self
        omega
      rw [List.flatMap_cons, List.cons_append, List.append_assoc, descendants_eq hf]
      exact .pop (ih hbelow hrest)

/-- A walk with a stack finds the nodes below a node in the same order. -/
theorem popped_descendants (hf : f.Sound) (i : Nat) :
    f.Popped (f.children i) (f.descendants i) := by
  have hdeep : ∀ c ∈ f.children i, f.size ≤ f.depth c + f.size := fun c _ => by omega
  have h := popped_append hf hdeep .done
  rw [List.append_nil, List.append_nil, ← descendants_eq hf] at h
  exact h

end ReactiveView.Forest
