import ReactiveView.Proofs.Forest.Siblings
import ReactiveView.Proofs.Surface.WellFormed
/-!
# Rows of texts

A text that is written into a document or an element is alone there afterwards, so whatever is
written into the node next is written in place. A node takes at most one new node, the first time it
is written, also if other nodes are written in between: a write leaves the lone texts of the others
alone. What was in the node before stays outside the document with everything below it.

Results:
* `size_after_writes`: writing again makes no node.
* `setText_of_reached`: what a write does to a surface that can come about, and what later ones do.
-/
namespace ReactiveView.Surface

variable {ℓ : Type} {s s' : Surface ℓ} {i : Nat} {c : Content}

/-- What is below the former children of a node stays below them. -/
theorem Supplants.descendants {t : String} (hs : WellFormed s) (h : Supplants i t s s') {d : Nat}
    (hd : d ∈ s.forest.children i) : s'.forest.descendants d = s.forest.descendants d := by
  have hparent : s.forest.parent? d = some i := (hs.linked.iff i d).mp hd
  have hbelow : ∀ j, s.forest.Spans d j → s'.forest.children j = s.forest.children j := by
    intro j hj
    rw [h.children, if_neg]
    rintro rfl
    exact hs.acyclic i (hj.of_parent? hparent)
  rw [Forest.descendants, Forest.descendants, show s'.forest.size = s.forest.size + 1 from h.size,
    Forest.descendantsWithin_congr hs.linked _ hbelow]
  exact Forest.descendantsWithin_eq hs.sound_forest (by omega) (by omega)

/-! ## Rows of writes -/

/-- Texts written into nodes, one after the other. -/
def writes (row : List (Nat × String)) : List Edit := row.map fun w => .setText w.1 w.2

/-- All the nodes that are written are documents or elements. -/
def Takes (s : Surface ℓ) (row : List (Nat × String)) : Prop :=
  ∀ w ∈ row, ∃ c, s.content? w.1 = some c ∧ isLeaf c = false

theorem Takes.continues {row : List (Nat × String)} (h : Takes s row) (hs : Continues s s') :
    Takes s' row := by
  intro w hw
  obtain ⟨c, hc, hleaf⟩ := h w hw
  obtain ⟨d, hd, hdshape⟩ := hs.exists_content? hc
  exact ⟨d, hd, by rw [← isLeaf_shape, hdshape, isLeaf_shape, hleaf]⟩

/-- A node that is written has a lone text afterwards, and one that has it keeps it. -/
theorem isSome_loneText?_after (hs : WellFormed s) {row : List (Nat × String)} (h : Takes s row)
    {j : Nat} (hj : (s.loneText? j).isSome ∨ ∃ w ∈ row, w.1 = j) :
    ((s.after (writes row)).loneText? j).isSome := by
  induction row generalizing s with
  | nil =>
    rcases hj with hj | ⟨w, hw, -⟩
    · exact hj
    · cases hw
  | cons w rest ih =>
    obtain ⟨⟨c, hi, hc⟩, hrest⟩ := List.forall_mem_cons.mp h
    have hnext : Continues s (s.setText w.1 w.2).2 := continues_apply hs (.setText w.1 w.2)
    have hlone := loneText?_setText hs.toSound hi hc w.2 j
    refine ih (wellFormed_apply hs (.setText w.1 w.2)) (Takes.continues hrest hnext) ?_
    rcases hj with hj | ⟨v, hv, rfl⟩
    · refine .inl ?_
      show ((s.setText w.1 w.2).2.loneText? j).isSome
      rw [hlone]
      split
      · rfl
      · exact hj
    · rcases List.mem_cons.mp hv with rfl | hv
      · refine .inl ?_
        show ((s.setText v.1 v.2).2.loneText? v.1).isSome
        rw [hlone, if_pos rfl]
        rfl
      · exact .inr ⟨v, hv, rfl⟩

/-- Writes to nodes with lone texts make no node. -/
theorem size_after_of_loneText? (hs : WellFormed s) {row : List (Nat × String)} (h : Takes s row)
    (hlone : ∀ w ∈ row, (s.loneText? w.1).isSome) : (s.after (writes row)).size = s.size := by
  induction row generalizing s with
  | nil => rfl
  | cons w rest ih =>
    obtain ⟨⟨c, hi, hc⟩, hrest⟩ := List.forall_mem_cons.mp h
    obtain ⟨hfirst, hothers⟩ := List.forall_mem_cons.mp hlone
    have hnext : Continues s (s.setText w.1 w.2).2 := continues_apply hs (.setText w.1 w.2)
    have hsize : (s.setText w.1 w.2).2.size = s.size :=
      (size_setText hs.toSound hi hc w.2).trans (if_pos hfirst)
    rw [← hsize]
    refine ih (wellFormed_apply hs (.setText w.1 w.2)) (Takes.continues hrest hnext) fun v hv => ?_
    show ((s.setText w.1 w.2).2.loneText? v.1).isSome
    rw [loneText?_setText hs.toSound hi hc]
    split
    · rfl
    · exact hothers v hv

theorem after_append (s : Surface ℓ) (edits more : List Edit) :
    s.after (edits ++ more) = (s.after edits).after more := List.foldl_append

/-- Once some nodes have been written, writing them again makes no node. -/
theorem size_after_writes (hs : WellFormed s) {row more : List (Nat × String)} (h : Takes s row)
    (hmore : ∀ w ∈ more, ∃ v ∈ row, v.1 = w.1) :
    (s.after (writes row ++ writes more)).size = (s.after (writes row)).size := by
  have htakes : Takes s more := fun w hw => by
    obtain ⟨v, hv, heq⟩ := hmore w hw
    exact heq ▸ h v hv
  rw [after_append]
  exact size_after_of_loneText? (wellFormed_after hs _) (htakes.continues (continues_after hs _))
    fun w hw => isSome_loneText?_after hs h (.inr (hmore w hw))

/-- A text written into a document or an element of a surface that can come about. The write is
done, and the node has this text and no other child. If a text stood alone in it, that text node is
written over and nothing else is different; otherwise one node is new, and the former children have
no parent any more and what they had below them. Later writes to nodes that have been written so
make no node. -/
theorem setText_of_reached (h : Reached s) (hi : s.content? i = some c) (hc : isLeaf c = false)
    (t : String) :
    (∃ k s', s.apply (.setText i t) = (.ok (), s') ∧ s'.forest.children i = [k] ∧
      s'.content? k = some (.text t) ∧ s'.textContent i = .ok t ∧
      ((∃ u, s.forest.children i = [k] ∧ s.content? k = some (.text u)) ∧ Overwrites k t s s' ∨
        (¬∃ only u, s.forest.children i = [only] ∧ s.content? only = some (.text u)) ∧
          k = s.size ∧ Supplants i t s s' ∧
          ∀ d ∈ s.forest.children i, s'.forest.parent? d = none ∧
            s'.forest.descendants d = s.forest.descendants d)) ∧
    ∀ row more : List (Nat × String), Takes s row →
      (∀ w ∈ more, ∃ v ∈ (i, t) :: row, v.1 = w.1) →
      (s.after (writes ((i, t) :: row) ++ writes more)).size
        = (s.after (writes ((i, t) :: row))).size := by
  have hs := wellFormed_of_reached h
  refine ⟨?_, fun row more hrow hmore =>
    size_after_writes hs (List.forall_mem_cons.mpr ⟨⟨c, hi, hc⟩, hrow⟩) hmore⟩
  -- the node is what it was, so its text is that of the only child
  have htext : ∀ {k : Nat} {s' : Surface ℓ}, s.apply (.setText i t) = (.ok (), s') →
      s'.content? i = some c → s'.forest.children i = [k] → s'.content? k = some (.text t) →
      s'.textContent i = .ok t := by
    intro k s' hset hi' hchildren hk
    have hsound := (wellFormed_apply hs (.setText i t)).toSound
    rw [hset] at hsound
    exact textContent_of_lone hsound hi' hc hchildren hk
  cases hlone : s.loneText? i with
  | some k =>
    obtain ⟨hchildren, u, hu⟩ := loneText?_eq_some hlone
    obtain ⟨s', hset, hover⟩ := setText_of_loneText hi hlone t
    have hne : k ≠ i := by
      rintro rfl
      rw [hi] at hu
      cases hu
      cases hc
    have hchildren' : s'.forest.children i = [k] := (hover.children i).trans hchildren
    have hk : s'.content? k = some (.text t) := by rw [hover.content?, if_pos rfl, hu]; rfl
    have hi' : s'.content? i = some c := by rw [hover.content?, if_neg hne, hi]
    exact ⟨k, s', hset, hchildren', hk, htext hset hi' hchildren' hk,
      .inl ⟨⟨u, hchildren, hu⟩, hover⟩⟩
  | none =>
    obtain ⟨s', hset, hnew⟩ := setText_of_no_loneText hs.toSound hi hc hlone t
    have hchildren' : s'.forest.children i = [s.size] := by rw [hnew.children, if_pos rfl]
    have hk : s'.content? s.size = some (.text t) := by rw [hnew.content?, if_pos rfl]
    have hi' : s'.content? i = some c := by
      rw [hnew.content?, if_neg (Nat.ne_of_lt (lt_of_content? hi)), hi]
    have hnone : ¬∃ only u, s.forest.children i = [only] ∧ s.content? only = some (.text u) := by
      rintro ⟨only, u, hsome⟩
      rw [loneText?_eq_some_iff.mpr ⟨hsome.1, u, hsome.2⟩] at hlone
      cases hlone
    refine ⟨s.size, s', hset, hchildren', hk, htext hset hi' hchildren' hk,
      .inr ⟨hnone, rfl, hnew, fun d hd => ⟨?_, hnew.descendants hs hd⟩⟩⟩
    rw [hnew.parent, if_neg (Nat.ne_of_gt (hs.toSound.lt_size hd).2), if_pos hd]

/-- A list that is written over with a text, and then together with the item that was in it. The
item is still there with its own text, which is written in place. -/
theorem setText_of_reached_list :
    let s : Surface Unit := repeatSurface
    let row := [(2, "none"), (3, "left")]
    let more := [(3, "still left"), (2, "empty"), (2, "")]
    Reached s ∧ s.content? 2 = some (.element "ul" []) ∧ Takes s [(3, "left")] ∧
      (∃ s', s.apply (.setText 2 "none") = (.ok (), s') ∧ s'.forest.children 2 = [5] ∧
        s'.textContent 2 = .ok "none" ∧ s'.size = 6 ∧ s'.forest.parent? 3 = none ∧
        s'.forest.descendants 3 = [4]) ∧
      (s.after (writes row ++ writes more)).size = (s.after (writes row)).size := by
  intro s row more
  have hreached : Reached s := reached_of_ofMarkup ofMarkup_repeatMarkup
  have hlist : s.content? 2 = some (.element "ul" []) := rfl
  have htakes : Takes s [(3, "left")] :=
    List.forall_mem_singleton.mpr ⟨.element "li" [("vm-repeat", "item in items")], rfl, rfl⟩
  obtain ⟨⟨k, s', hset, hchildren, -, htext, hway⟩, hlater⟩ :=
    setText_of_reached hreached hlist rfl "none"
  refine ⟨hreached, hlist, htakes, ?_, hlater [(3, "left")] more htakes (by decide)⟩
  rcases hway with ⟨⟨u, hold, hu⟩, -⟩ | ⟨-, rfl, hnew, hformer⟩
  · -- what was in the list is no text
    have hk : k = 3 := List.singleton_inj.mp (hold.symm.trans rfl)
    rw [hk] at hu
    cases hu
  · obtain ⟨hparent, hbelow⟩ := hformer 3 (by decide)
    exact ⟨s', hset, hchildren, htext, hnew.size, hparent, hbelow.trans (by decide)⟩

end ReactiveView.Surface
