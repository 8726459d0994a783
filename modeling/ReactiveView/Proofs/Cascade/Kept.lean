import ReactiveView.Proofs.Cascade.Order
/-!
# What cascades keep

A cascade does nothing to the state but read values and call observers. So what these keep, a cascade
keeps, whatever they do otherwise; and it does not matter where the cascade goes or at which observer
it fails. Observers may add nodes while the cascade runs. Only if they leave the links alone is it
known beforehand how deep the walks go, and then a cascade with enough depth comes to an end as soon
as all its parts do.

Results:
* `Keeps.notify`, `Keeps.notifyAll`: what the parts keep, the whole keeps.
* `Keeps.notifyAll_of_sound`: a cascade that is deep enough is exhausted only by its parts.
-/
namespace ReactiveView.Cascade

open Run

variable {S ω : Type} {c : Cascade S ω} {I : S → Prop} {O : ω → Prop} {E : Prop} {s : S}

/-- Reading values and calling observers keeps `I`, where `O` is said of all observers that there
are. A run whose depth is used up is accepted if `exhausted`. -/
structure Keeps (c : Cascade S ω) (I : S → Prop) (O : ω → Prop) (exhausted : Prop) : Prop where
  observers : ∀ s, I s → ∀ i p, (c.graph s).property i = .ok p → ∀ o ∈ p.observers, O o
  value : ∀ s, I s → ∀ source, (c.value source s).Ends I I exhausted
  call : ∀ s, I s → ∀ o, O o → ∀ current previous,
    (c.call o current previous s).Ends I I exhausted

theorem Keeps.imp {E' : Prop} (hc : c.Keeps I O E) (h : E → E') : c.Keeps I O E' where
  observers := hc.observers
  value s hs source := (hc.value s hs source).imp (fun _ h => h) (fun _ h => h) h
  call s hs o ho v w := (hc.call s hs o ho v w).imp (fun _ h => h) (fun _ h => h) h

theorem Keeps.notify (hc : c.Keeps I O E) (hs : I s) (id : Nat) : (c.notify id s).Ends I I E := by
  show ((Run.ofExcept ((c.graph s).property id) >>= _ : Run S Unit) s).Ends I I E
  cases hp : (c.graph s).property id with
  | error e => exact hs
  | ok p =>
    show ((if p.observers.isEmpty then pure () else _ : Run S Unit) s).Ends I I E
    split
    · exact hs
    · refine ends_bind (hc.value s hs p.source) fun v s' hs' => ?_
      refine ends_forM (fun o ho s'' hs'' => ?_) hs'
      exact hc.call s'' hs'' o (hc.observers s hs id p hp o ho) v _

theorem Keeps.notifyBelow (hc : c.Keeps I O True) (hs : I s) (depth id : Nat) :
    (c.notifyBelow depth id s).Ends I I True := by
  induction depth generalizing id s with
  | zero => trivial
  | succ depth ih =>
    show ((Run.ofExcept ((c.graph s).children id) >>= _ : Run S Unit) s).Ends I I True
    cases (c.graph s).children id with
    | error e => exact hs
    | ok children =>
      refine ends_forM (fun child _ s' hs' => ?_) hs
      exact ends_bind (hc.notify hs' child) fun _ s'' hs'' => ih hs'' child

theorem Keeps.notifyAbove (hc : c.Keeps I O True) (hs : I s) (depth id : Nat) :
    (c.notifyAbove depth id s).Ends I I True := by
  induction depth generalizing id s with
  | zero => trivial
  | succ depth ih =>
    show ((Run.ofExcept ((c.graph s).parent id) >>= _ : Run S Unit) s).Ends I I True
    cases (c.graph s).parent id with
    | error e => exact hs
    | ok parent =>
      cases parent with
      | none => exact hs
      | some p =>
        show ((c.notify p >>= fun _ => c.notifyAbove depth p : Run S Unit) s).Ends I I True
        exact ends_bind (hc.notify hs p) fun _ s' hs' => ih hs' p

/-- The cascade of a write keeps what its parts keep, at whatever depth it ends. -/
theorem Keeps.notifyAll (hc : c.Keeps I O True) (hs : I s) (depth id : Nat) :
    (c.notifyAll depth id s).Ends I I True :=
  ends_bind (hc.notifyBelow hs depth id) fun _ _ hs' =>
    ends_bind (hc.notify hs' id) fun _ _ hs'' => hc.notifyAbove hs'' depth id

/-- Where the links stay as they are, only the parts can use up the depth of a cascade that is deeper
than the graph is large. -/
theorem Keeps.notifyAll_of_sound (hc : c.Keeps I O E) {g : Graph ω} (hg : g.Sound)
    (hI : ∀ s, I s → g.SameShape (c.graph s)) (hs : I s) {id : Nat} (hid : g.contains id)
    {depth : Nat} (hd : g.forest.size < depth) : (c.notifyAll depth id s).Ends I I E := by
  have hstep : ∀ n ∈ g.order id, ∀ s s', I s → c.notify n s = .done () s' → I s' := by
    intro n _ s s' hs hdone
    have hends := hc.notify hs n
    rw [hdone] at hends
    exact hends
  rw [notifyAll_eq_forM_of_sound hg hI hid hd hstep hs]
  exact ends_forM (fun n _ s' hs' => hc.notify hs' n) hs

end ReactiveView.Cascade
