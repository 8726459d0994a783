import ReactiveView.Cascade
import ReactiveView.Proofs.Graph.Walk
import ReactiveView.Proofs.Run.Tracks
/-!
# The order of cascades

A cascade reads the graph anew at every step. As long as the nodes that it notifies leave the links
alone, it comes to the same as notifying the nodes of one list in a row, which is known from the
start: `Graph.order`.

Results:
* `notifyAll_eq_forM_of_sound`, `notifyAll_eq_forM`: the cascade of a write notifies the nodes in
  order, one after the other.
-/
namespace ReactiveView

namespace Graph

variable {ω : Type} {g : Graph ω}

/-- The nodes of the cascade of a write: what is below the node, the node, what is above it. -/
def order (g : Graph ω) (id : Nat) : List Nat :=
  g.forest.descendants id ++ id :: g.forest.ancestors id

/-- The order of a cascade depends on the shape of the graph only. -/
theorem SameShape.order {g' : Graph ω} (h : SameShape g g') (id : Nat) :
    g'.order id = g.order id := by
  have hbelow : ∀ levels i,
      g'.forest.descendantsWithin levels i = g.forest.descendantsWithin levels i := by
    intro levels
    induction levels with
    | zero => exact fun _ => rfl
    | succ levels ih =>
      intro i
      simp only [Forest.descendantsWithin, h.children, ih]
  have habove : ∀ steps i, g'.forest.ancestorsWithin steps i = g.forest.ancestorsWithin steps i := by
    intro steps
    induction steps with
    | zero => exact fun _ => rfl
    | succ steps ih =>
      intro i
      simp only [Forest.ancestorsWithin, h.parent, ih]
  rw [Graph.order, Graph.order, Forest.descendants, Forest.descendants, Forest.ancestors,
    Forest.ancestors, h.size, hbelow, habove]

/-- The nodes of the cascade of a node are all there. -/
theorem contains_of_mem_order (hg : Sound g) {id n : Nat} (hid : g.contains id)
    (h : n ∈ g.order id) : g.contains n := by
  rcases List.mem_append.mp h with hbelow | h
  · obtain ⟨p, hp⟩ := (Forest.above_of_mem_descendantsWithin hg.forest.linked hbelow).exists_parent
    exact (hg.ends n p hp).1
  · rcases List.mem_cons.mp h with rfl | habove
    · exact hid
    · obtain ⟨c, hc⟩ := (Forest.above_of_mem_ancestorsWithin habove).exists_child
      exact (hg.ends c n hc).2

/-- The nodes of the cascade of a node of the data are nodes of the data. -/
theorem location?_of_mem_order (hg : Grown g) {id n : Nat} {q : Path}
    (hid : g.location? id = some q) (h : n ∈ g.order id) : ∃ q, g.location? n = some q := by
  rcases List.mem_append.mp h with hbelow | h
  · obtain ⟨p, hp⟩ := (Forest.above_of_mem_descendantsWithin hg.linked hbelow).exists_parent
    obtain ⟨base, path, s, -, hplace, -⟩ := hg.child n p hp
    exact ⟨path ++ [s], by rw [location?, hplace]; rfl⟩
  · rcases List.mem_cons.mp h with rfl | habove
    · exact ⟨q, hid⟩
    · obtain ⟨c, hc⟩ := (Forest.above_of_mem_ancestorsWithin habove).exists_child
      obtain ⟨base, path, s, hbase, -, -⟩ := hg.child c n hc
      exact ⟨base, hbase⟩

theorem exists_property {i : Nat} (h : g.contains i) : ∃ p, g.property i = .ok p := by
  obtain ⟨p, hp⟩ := Option.isSome_iff_exists.mp h
  exact ⟨p, property_eq_ok.mpr hp⟩

end Graph

namespace Run

variable {S α β : Type}

/-- Runs that are the same from a state go on in the same way, if what follows is the same from
where they are done. -/
theorem bind_congr_at {x x' : Run S α} {f f' : α → Run S β} {s : S} (hx : x s = x' s)
    (hf : ∀ a s', x s = .done a s' → f a s' = f' a s') : (x >>= f) s = (x' >>= f') s := by
  rw [bind_eq, bind_eq, andThen, andThen, ← hx]
  cases h : x s with
  | done a s' => exact hf a s' h
  | failed e s' => rfl
  | exhausted => rfl

theorem forM_keeps {I : S → Prop} {f : α → Run S PUnit} {as : List α}
    (h : ∀ a ∈ as, ∀ s s', I s → f a s = .done ⟨⟩ s' → I s') {s s' : S} (hs : I s)
    (hrun : as.forM f s = .done ⟨⟩ s') : I s' := by
  induction as generalizing s with
  | nil =>
    cases hrun
    exact hs
  | cons a as ih =>
    obtain ⟨_, s₁, ha, hrest⟩ := bind_eq_done hrun
    exact ih (fun b hb => h b (List.mem_cons_of_mem _ hb)) (h a List.mem_cons_self s s₁ hs ha) hrest

end Run

namespace Cascade

open Run

variable {S ω : Type} {c : Cascade S ω} {g : Graph ω} {I : S → Prop}

/-- The walk below a node notifies the nodes below it in order. What a notification keeps is `I`,
and `I` keeps the links. -/
theorem notifyBelow_eq_forM (hg : g.Sound) (hI : ∀ s, I s → g.SameShape (c.graph s))
    {depth id : Nat} (hid : g.contains id) (hd : g.forest.size ≤ g.forest.depth id + depth)
    (hstep : ∀ n ∈ g.forest.descendantsWithin depth id, ∀ s s', I s →
      c.notify n s = .done () s' → I s') {s : S} (hs : I s) :
    c.notifyBelow depth id s = (g.forest.descendantsWithin depth id).forM c.notify s := by
  induction depth generalizing id s with
  | zero => exact absurd (Forest.depth_lt_size hg.forest (Graph.lt_of_contains hid)) (by omega)
  | succ depth ih =>
    have hshape := hI s hs
    obtain ⟨property, hproperty⟩ : ∃ p, (c.graph s).property id = .ok p :=
      Graph.exists_property ((hshape.contains id).trans hid)
    have hchildren : (c.graph s).children id = .ok (g.forest.children id) := by
      rw [Graph.children, hproperty, hshape.children]
      rfl
    -- the children are walked from left to right, as they are listed
    have hwalk : ∀ (cs : List Nat), (∀ d ∈ cs, d ∈ g.forest.children id) → ∀ s, I s →
        cs.forM (fun d => c.notify d >>= fun _ => c.notifyBelow depth d) s
          = (cs.flatMap fun d => d :: g.forest.descendantsWithin depth d).forM c.notify s := by
      intro cs hcs
      induction cs with
      | nil => exact fun _ _ => rfl
      | cons d cs ihcs =>
        intro s hs
        have hmem := hcs d List.mem_cons_self
        have hparent := (hg.forest.linked.iff id d).mp hmem
        have hdepth := Forest.depth_of_parent? hg.forest hparent
        have hsub : ∀ n ∈ d :: g.forest.descendantsWithin depth d,
            n ∈ g.forest.descendantsWithin (depth + 1) id :=
          fun n hn => List.mem_flatMap.mpr ⟨d, hmem, hn⟩
        have hnode : (c.notify d >>= fun _ => c.notifyBelow depth d) s
            = (d :: g.forest.descendantsWithin depth d).forM c.notify s := by
          refine bind_congr_at rfl fun _ s' hdone => ?_
          refine ih (hg.ends d id hparent).1 (by omega) ?_
            (hstep d (hsub d List.mem_cons_self) s s' hs hdone)
          exact fun n hn => hstep n (hsub n (List.mem_cons_of_mem _ hn))
        rw [List.flatMap_cons]
        have hsplit : ∀ (as bs : List Nat), (as ++ bs).forM c.notify
            = as.forM c.notify >>= fun _ => bs.forM c.notify := fun as bs => List.forM_append
        rw [hsplit]
        refine bind_congr_at hnode fun _ s' hdone => ?_
        refine ihcs (fun e he => hcs e (List.mem_cons_of_mem _ he)) s' ?_
        exact forM_keeps (fun n hn => hstep n (hsub n hn)) hs (hnode.symm.trans hdone)
    have hlook : c.notifyBelow (depth + 1) id s
        = ((g.forest.children id).forM fun d => c.notify d >>= fun _ => c.notifyBelow depth d) s := by
      show (Run.ofExcept ((c.graph s).children id) >>= _) s = _
      rw [hchildren]
      rfl
    rw [hlook, hwalk _ (fun _ h => h) s hs]
    rfl

/-- The walk above a node notifies the nodes above it, the nearest first. -/
theorem notifyAbove_eq_forM (hg : g.Sound) (hI : ∀ s, I s → g.SameShape (c.graph s))
    {depth id : Nat} (hid : g.contains id) (hd : g.forest.depth id < depth)
    (hstep : ∀ n ∈ g.forest.ancestorsWithin depth id, ∀ s s', I s →
      c.notify n s = .done () s' → I s') {s : S} (hs : I s) :
    c.notifyAbove depth id s = (g.forest.ancestorsWithin depth id).forM c.notify s := by
  induction depth generalizing id s with
  | zero => omega
  | succ depth ih =>
    have hshape := hI s hs
    obtain ⟨property, hproperty⟩ : ∃ p, (c.graph s).property id = .ok p :=
      Graph.exists_property ((hshape.contains id).trans hid)
    have hparent : (c.graph s).parent id = .ok (g.forest.parent? id) := by
      rw [Graph.parent, hproperty, hshape.parent]
      rfl
    rw [Forest.ancestorsWithin] at hstep ⊢
    cases hp : g.forest.parent? id with
    | none =>
      show (Run.ofExcept ((c.graph s).parent id) >>= _) s = _
      rw [hparent, hp]
      rfl
    | some p =>
      rw [hp] at hstep
      have hdepth := Forest.depth_of_parent? hg.forest hp
      have hlook : c.notifyAbove (depth + 1) id s
          = (c.notify p >>= fun _ => c.notifyAbove depth p) s := by
        show (Run.ofExcept ((c.graph s).parent id) >>= _) s = _
        rw [hparent, hp]
        rfl
      rw [hlook]
      refine bind_congr_at rfl fun _ s' hdone => ?_
      refine ih (hg.ends id p hp).2 (by omega) ?_
        (hstep p List.mem_cons_self s s' hs hdone)
      exact fun n hn => hstep n (List.mem_cons_of_mem _ hn)

/-- The cascade of a write notifies the nodes in order, one after the other. -/
theorem notifyAll_eq_forM_of_sound (hg : g.Sound) (hI : ∀ s, I s → g.SameShape (c.graph s))
    {depth id : Nat} (hid : g.contains id) (hd : g.forest.size < depth)
    (hstep : ∀ n ∈ g.order id, ∀ s s', I s → c.notify n s = .done () s' → I s') {s : S}
    (hs : I s) : c.notifyAll depth id s = (g.order id).forM c.notify s := by
  have hdepth := Forest.depth_lt_size hg.forest (Graph.lt_of_contains hid)
  have hbelow : g.forest.descendantsWithin depth id = g.forest.descendants id :=
    Forest.descendantsWithin_eq hg.forest (by omega) (by omega)
  have habove : g.forest.ancestorsWithin depth id = g.forest.ancestors id :=
    Forest.ancestorsWithin_eq hg.forest (by omega) id
  have hmem : ∀ n, n ∈ g.forest.descendants id ∨ n = id ∨ n ∈ g.forest.ancestors id →
      n ∈ g.order id := fun n hn =>
    List.mem_append.mpr (hn.imp_right List.mem_cons.mpr)
  have hsplit : (g.order id).forM c.notify = (g.forest.descendants id).forM c.notify >>= fun _ =>
      c.notify id >>= fun _ => (g.forest.ancestors id).forM c.notify := List.forM_append
  have hfirst : c.notifyBelow depth id s = (g.forest.descendants id).forM c.notify s := by
    rw [← hbelow]
    refine notifyBelow_eq_forM hg hI hid (by omega) (fun n hn => hstep n (hmem n (.inl ?_))) hs
    rwa [← hbelow]
  rw [hsplit]
  refine bind_congr_at hfirst fun _ s₁ h₁ => bind_congr_at rfl fun _ s₂ h₂ => ?_
  have hs₁ : I s₁ :=
    forM_keeps (fun n hn => hstep n (hmem n (.inl hn))) hs (hfirst.symm.trans h₁)
  have hs₂ : I s₂ := hstep id (hmem id (.inr (.inl rfl))) s₁ s₂ hs₁ h₂
  rw [← habove]
  refine notifyAbove_eq_forM hg hI hid (by omega) (fun n hn => hstep n (hmem n (.inr (.inr ?_)))) hs₂
  rwa [← habove]

/-- In a grown graph, whatever has a place can be notified. -/
theorem notifyAll_eq_forM (hg : g.Grown) (hI : ∀ s, I s → g.SameShape (c.graph s))
    {depth id : Nat} (hid : (g.place? id).isSome) (hd : g.forest.size < depth)
    (hstep : ∀ n ∈ g.order id, ∀ s s', I s → c.notify n s = .done () s' → I s') {s : S}
    (hs : I s) : c.notifyAll depth id s = (g.order id).forM c.notify s :=
  notifyAll_eq_forM_of_sound hg.sound hI ((Graph.contains_eq id).trans hid) hd hstep hs

end Cascade

end ReactiveView
