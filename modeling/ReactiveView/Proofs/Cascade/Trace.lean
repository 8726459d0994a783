import ReactiveView.Proofs.Cascade.Order
/-!
# Traces of cascades

Where observers and the reading of values leave the graph alone, a cascade is known from the graph
it starts from: which observers it calls, in which order and with which values, as far as nothing
fails. Such a trace is told node by node, without the walks that the cascade takes.

Results:
* `Traced.forM`, `Traced.recording`: a trace is what comes of notifying nodes in a row, and what a
  record of the calls shows.
* `exists_traced`: there is a trace for all nodes that are there.
* `traced_of_calm`: the trace of the cascade of a write, and the one of notifying every node.
-/
namespace ReactiveView

namespace Run

variable {S α : Type} {x : Run S α} {s s' : S}

/-- A run comes to an end, and what holds of the state then. -/
def EndsIn (x : Run S α) (I : S → Prop) (s : S) : Prop :=
  match x s with
  | .done _ s' => I s'
  | .failed _ s' => I s'
  | .exhausted => False

theorem EndsIn.cases {I : S → Prop} (h : x.EndsIn I s) :
    (∃ a s', x s = .done a s' ∧ I s') ∨ ∃ e s', x s = .failed e s' ∧ I s' := by
  unfold EndsIn at h
  cases hx : x s with
  | done a s' =>
    rw [hx] at h
    exact .inl ⟨a, s', rfl, h⟩
  | failed e s' =>
    rw [hx] at h
    exact .inr ⟨e, s', rfl, h⟩
  | exhausted =>
    rw [hx] at h
    cases h

theorem EndsIn.of_done {I : S → Prop} (h : x.EndsIn I s) {a : α} (hx : x s = .done a s') : I s' := by
  rw [EndsIn, hx] at h
  exact h

end Run

namespace Cascade

open Run

variable {S ω : Type}

/-- A call of an observer with the current and the previous value. -/
structure Call (ω : Type) where
  observer : ω
  current : Value
  previous : Value

/-- The calls that a node asks for when its value has been read: of its observers in order, with
this value for the previous one if none is recorded. -/
def calls (p : Property ω) (current : Value) : List (Call ω) :=
  p.observers.map fun o => ⟨o, current, p.previous.getD current⟩

/-- What a call does. -/
def make (c : Cascade S ω) (k : Call ω) : Run S Unit := c.call k.observer k.current k.previous

/-- A run on the state beside a record. -/
def beside {α : Type} (x : Run S α) : Run (S × List (Call ω)) α :=
  x.onPart (·.1) fun s t => (s, t.2)

/-- The cascade that keeps a record of the calls of observers, the latest last. -/
def recording (c : Cascade S ω) : Cascade (S × List (Call ω)) ω where
  graph t := c.graph t.1
  value source := beside (c.value source)
  call o current previous := do
    Run.change fun t => (t.1, t.2 ++ [⟨o, current, previous⟩])
    beside (c.call o current previous)

/-- Calls in a row are made up to the first that fails: those that are made, how this ends, and the
state then. -/
inductive Made (c : Cascade S ω) : List (Call ω) → S → List (Call ω) → Except Error Unit → S → Prop
  | nil {s : S} : Made c [] s [] (.ok ()) s
  | fails {k : Call ω} {ks : List (Call ω)} {e : Error} {s s' : S}
      (h : c.make k s = .failed e s') : Made c (k :: ks) s [k] (.error e) s'
  | goes {k : Call ω} {ks log : List (Call ω)} {r : Except Error Unit} {s s₁ s' : S}
      (h : c.make k s = .done () s₁) (rest : Made c ks s₁ log r s') :
      Made c (k :: ks) s (k :: log) r s'

/-- The trace of nodes that are notified in a row. A node without observers is passed over, and its
value is not read. The calls of the others follow each other, up to the first that fails, or to the
first node with observers whose value cannot be read. -/
inductive Traced (c : Cascade S ω) (g : Graph ω) :
    List Nat → S → List (Call ω) → Except Error Unit → S → Prop
  | nil {s : S} : Traced c g [] s [] (.ok ()) s
  | silent {i : Nat} {is : List Nat} {p : Property ω} {log : List (Call ω)} {r : Except Error Unit}
      {s s' : S} (hp : g.property i = .ok p) (hnone : p.observers = [])
      (rest : Traced c g is s log r s') : Traced c g (i :: is) s log r s'
  | unreadable {i : Nat} {is : List Nat} {p : Property ω} {e : Error} {s s' : S}
      (hp : g.property i = .ok p) (hsome : p.observers ≠ [])
      (hv : c.value p.source s = .failed e s') : Traced c g (i :: is) s [] (.error e) s'
  | cut {i : Nat} {is : List Nat} {p : Property ω} {v : Value} {log : List (Call ω)} {e : Error}
      {s s₁ s' : S} (hp : g.property i = .ok p) (hsome : p.observers ≠ [])
      (hv : c.value p.source s = .done v s₁) (hmade : Made c (calls p v) s₁ log (.error e) s') :
      Traced c g (i :: is) s log (.error e) s'
  | called {i : Nat} {is : List Nat} {p : Property ω} {v : Value} {log : List (Call ω)}
      {r : Except Error Unit} {s s₁ s₂ s' : S} (hp : g.property i = .ok p)
      (hsome : p.observers ≠ []) (hv : c.value p.source s = .done v s₁)
      (hmade : Made c (calls p v) s₁ (calls p v) (.ok ()) s₂) (rest : Traced c g is s₂ log r s') :
      Traced c g (i :: is) s (calls p v ++ log) r s'

/-- Reading values and calling observers may fail, but comes to an end and leaves the graph as it
is. -/
structure Calm (c : Cascade S ω) (g : Graph ω) : Prop where
  value : ∀ {i : Nat} {p : Property ω} {s : S}, g.property i = .ok p → c.graph s = g →
    (c.value p.source).EndsIn (fun s => c.graph s = g) s
  call : ∀ {i : Nat} {p : Property ω} {o : ω} {s : S} (current previous : Value),
    g.property i = .ok p → o ∈ p.observers → c.graph s = g →
    (c.call o current previous).EndsIn (fun s => c.graph s = g) s

variable {c : Cascade S ω} {g : Graph ω} {s s' : S} {log : List (Call ω)} {r : Except Error Unit}

/-! ## Calls in a row -/

theorem Made.forM {ks : List (Call ω)} (h : Made c ks s log r s') :
    (ks.forM c.make).attempt s = .done r s' := by
  induction h with
  | nil => rfl
  | fails h => exact attempt_of_failed (bind_of_failed h)
  | goes h _ ih => exact (attempt_bind_of_done h).trans ih

theorem exists_made (hc : c.Calm g) {i : Nat} {p : Property ω} (hp : g.property i = .ok p)
    {ks : List (Call ω)} (hk : ∀ k ∈ ks, k.observer ∈ p.observers) (hs : c.graph s = g) :
    ∃ log r s', Made c ks s log r s' ∧ c.graph s' = g ∧ (r = .ok () → log = ks) := by
  induction ks generalizing s with
  | nil => exact ⟨[], .ok (), s, .nil, hs, fun _ => rfl⟩
  | cons k ks ih =>
    have hends := hc.call k.current k.previous hp (hk k List.mem_cons_self) hs
    rcases hends.cases with ⟨⟨⟩, s₁, hmake, hs₁⟩ | ⟨e, s', hmake, hs'⟩
    · obtain ⟨log, r, s', hmade, hs', hall⟩ := ih (fun l hl => hk l (List.mem_cons_of_mem _ hl)) hs₁
      exact ⟨k :: log, r, s', .goes hmake hmade, hs', fun h => congrArg (k :: ·) (hall h)⟩
    · exact ⟨[k], .error e, s', .fails hmake, hs', fun h => by cases h⟩

theorem observer_mem_of_mem_calls {p : Property ω} {v : Value} {k : Call ω} (h : k ∈ calls p v) :
    k.observer ∈ p.observers := by
  obtain ⟨o, ho, rfl⟩ := List.mem_map.mp h
  exact ho

/-! ## One node -/

theorem notify_of_property {i : Nat} {p : Property ω} (hp : g.property i = .ok p)
    (hs : c.graph s = g) : c.notify i s =
      (if p.observers.isEmpty then pure () else do
        let current ← c.value p.source
        (calls p current).forM c.make : Run S Unit) s := by
  have hcalls : ∀ v, (calls p v).forM c.make
      = p.observers.forM fun o => c.call o v (p.previous.getD v) := fun v => List.forM_map
  show (Run.ofExcept ((c.graph s).property i) >>= _) s = _
  simp only [hs, hp, hcalls]
  rfl

theorem notify_silent {i : Nat} {p : Property ω} (hp : g.property i = .ok p) (hs : c.graph s = g)
    (hnone : p.observers = []) : c.notify i s = .done () s := by
  rw [notify_of_property hp hs, hnone]
  rfl

theorem notify_of_some {i : Nat} {p : Property ω} (hp : g.property i = .ok p) (hs : c.graph s = g)
    (hsome : p.observers ≠ []) : c.notify i s =
      (c.value p.source >>= fun current => (calls p current).forM c.make) s := by
  rw [notify_of_property hp hs, if_neg (by simpa using hsome)]

/-- Notifying a node leaves the graph as it is. -/
theorem Calm.notify (hc : c.Calm g) (hs : c.graph s = g) {i : Nat}
    (h : c.notify i s = .done () s') : c.graph s' = g := by
  cases hp : g.property i with
  | error e =>
    have hfail : c.notify i s = .failed e s := by
      show (Run.ofExcept ((c.graph s).property i) >>= _) s = _
      rw [hs, hp]
      rfl
    rw [hfail] at h
    cases h
  | ok p =>
    by_cases hnone : p.observers = []
    · rw [notify_silent hp hs hnone] at h
      cases h
      exact hs
    · rw [notify_of_some hp hs hnone] at h
      obtain ⟨v, s₁, hv, hcalls⟩ := bind_eq_done h
      have hs₁ : c.graph s₁ = g := (hc.value hp hs).of_done hv
      obtain ⟨log, r, s₂, hmade, hs₂, -⟩ :=
        exists_made hc hp (fun k => observer_mem_of_mem_calls (v := v)) hs₁
      have hsame := hmade.forM.symm.trans (attempt_of_done hcalls)
      cases hsame
      exact hs₂

/-! ## Nodes in a row -/

/-- A trace is what comes of notifying the nodes in a row. -/
theorem Traced.forM {is : List Nat} (h : Traced c g is s log r s') (hc : c.Calm g)
    (hs : c.graph s = g) : (is.forM c.notify).attempt s = .done r s' := by
  induction h with
  | nil => rfl
  | silent hp hnone _ ih => exact (attempt_bind_of_done (notify_silent hp hs hnone)).trans (ih hs)
  | unreadable hp hsome hv =>
    refine attempt_of_failed (bind_of_failed ?_)
    rw [notify_of_some hp hs hsome]
    exact bind_of_failed hv
  | cut hp hsome hv hmade =>
    refine attempt_of_failed (bind_of_failed ?_)
    rw [notify_of_some hp hs hsome, bind_of_done hv]
    exact attempt_eq_error hmade.forM
  | @called i is p v log r s s₁ s₂ s' hp hsome hv hmade _ ih =>
    have hnotify : c.notify i s = .done () s₂ := by
      rw [notify_of_some hp hs hsome, bind_of_done hv]
      exact attempt_eq_ok hmade.forM
    exact (attempt_bind_of_done hnotify).trans (ih (hc.notify hs hnotify))

/-- Nodes that are there have a trace, and it leaves the graph as it is. -/
theorem exists_traced (hc : c.Calm g) {is : List Nat} (his : ∀ i ∈ is, g.contains i)
    (hs : c.graph s = g) : ∃ log r s', Traced c g is s log r s' ∧ c.graph s' = g := by
  induction is generalizing s with
  | nil => exact ⟨[], .ok (), s, .nil, hs⟩
  | cons i is ih =>
    have hrest := fun j hj => his j (List.mem_cons_of_mem i hj)
    obtain ⟨p, hp⟩ := Graph.exists_property (his i List.mem_cons_self)
    by_cases hnone : p.observers = []
    · obtain ⟨log, r, s', htraced, hs'⟩ := ih hrest hs
      exact ⟨log, r, s', .silent hp hnone htraced, hs'⟩
    · rcases (hc.value hp hs).cases with ⟨v, s₁, hv, hs₁⟩ | ⟨e, s', hv, hs'⟩
      · obtain ⟨log, r, s₂, hmade, hs₂, hall⟩ :=
          exists_made hc hp (fun k => observer_mem_of_mem_calls (v := v)) hs₁
        cases r with
        | error e => exact ⟨log, .error e, s₂, .cut hp hnone hv hmade, hs₂⟩
        | ok u =>
          obtain ⟨log', r, s', htraced, hs'⟩ := ih hrest hs₂
          rw [hall rfl] at hmade
          exact ⟨calls p v ++ log', r, s', .called hp hnone hv hmade htraced, hs'⟩
      · exact ⟨[], .error e, s', .unreadable hp hnone hv, hs'⟩

/-! ## The record -/

theorem beside_of_done {α : Type} {x : Run S α} {a : α} (h : x s = .done a s')
    (before : List (Call ω)) : beside x (s, before) = .done a (s', before) := by
  simp only [beside, onPart, h]

theorem beside_of_failed {α : Type} {x : Run S α} {e : Error} (h : x s = .failed e s')
    (before : List (Call ω)) : beside x (s, before) = .failed e (s', before) := by
  simp only [beside, onPart, h]

theorem endsIn_beside {α : Type} {x : Run S α} {I : S → Prop} (h : x.EndsIn I s)
    (before : List (Call ω)) : (beside x).EndsIn (fun t => I t.1) (s, before) := by
  rw [EndsIn]
  rcases h.cases with ⟨a, s', hx, hs'⟩ | ⟨e, s', hx, hs'⟩
  · rw [beside_of_done hx]
    exact hs'
  · rw [beside_of_failed hx]
    exact hs'

/-- A call is in the record before it is made. -/
theorem make_recording (k : Call ω) (s : S) (before : List (Call ω)) :
    c.recording.make k (s, before) = beside (c.make k) (s, before ++ [k]) := rfl

theorem Made.recording {ks : List (Call ω)} (h : Made c ks s log r s') (before : List (Call ω)) :
    Made c.recording ks (s, before) log r (s', before ++ log) := by
  induction h generalizing before with
  | nil =>
    rw [List.append_nil]
    exact .nil
  | @fails k ks e s s' h =>
    refine .fails ?_
    rw [make_recording, beside_of_failed h]
  | @goes k ks log r s s₁ s' h _ ih =>
    have hmake : c.recording.make k (s, before) = .done () (s₁, before ++ [k]) := by
      rw [make_recording, beside_of_done h]
    have hrest := ih (before ++ [k])
    rw [List.append_assoc, List.singleton_append] at hrest
    exact .goes hmake hrest

/-- A record shows the trace. -/
theorem Traced.recording {is : List Nat} (h : Traced c g is s log r s') (before : List (Call ω)) :
    Traced c.recording g is (s, before) log r (s', before ++ log) := by
  induction h generalizing before with
  | nil =>
    rw [List.append_nil]
    exact .nil
  | silent hp hnone _ ih => exact .silent hp hnone (ih before)
  | unreadable hp hsome hv =>
    rw [List.append_nil]
    exact .unreadable hp hsome (beside_of_failed hv before)
  | cut hp hsome hv hmade =>
    exact .cut hp hsome (beside_of_done hv before) (hmade.recording before)
  | @called i is p v log r s s₁ s₂ s' hp hsome hv hmade _ ih =>
    have hrest := ih (before ++ calls p v)
    rw [List.append_assoc] at hrest
    exact .called hp hsome (beside_of_done hv before) (hmade.recording before) hrest

/-- Keeping a record does not disturb. -/
theorem Calm.recording (hc : c.Calm g) : c.recording.Calm g where
  value {i p t} hp ht := endsIn_beside (hc.value (s := t.1) hp ht) t.2
  call {i p o t} current previous hp ho ht := by
    have hcall : c.recording.call o current previous t
        = beside (c.call o current previous) (t.1, t.2 ++ [⟨o, current, previous⟩]) := rfl
    rw [EndsIn, hcall]
    exact endsIn_beside (hc.call current previous hp ho ht) _

/-- The cascade of a write ends as the trace of its nodes does. -/
theorem Calm.notifyAll (hc : c.Calm g) (hg : g.Sound) {id depth : Nat} (hid : g.contains id)
    (hd : g.forest.size < depth) (hs : c.graph s = g)
    (h : Traced c g (g.order id) s log r s') : (c.notifyAll depth id).attempt s = .done r s' := by
  have hsteady : ∀ n ∈ g.order id, ∀ s s', c.graph s = g → c.notify n s = .done () s' →
      c.graph s' = g := fun n _ s s' hs hdone => hc.notify hs hdone
  have hshape : ∀ s, c.graph s = g → g.SameShape (c.graph s) := fun s hs => hs ▸ .refl g
  rw [Run.attempt, notifyAll_eq_forM_of_sound hg hshape hid hd hsteady hs]
  exact h.forM hc hs

/-- The trace of the cascade of a write runs over what is below the node, the node, and what is
above it; the trace of notifying every node runs over all numbers of nodes in increasing order. The
record shows the calls of the trace and no others, and the cascade ends as the trace does. -/
theorem traced_of_calm (hg : g.Built) (hc : c.Calm g) (hs : c.graph s = g) :
    (∀ id depth, g.contains id → g.forest.size < depth → ∃ below above log r s',
      g.descendants id = .ok below ∧ g.forest.Popped (g.forest.children id) below ∧
      g.ancestors id = .ok above ∧
      Traced c g (below ++ id :: above) s log r s' ∧
      (c.notifyAll depth id).attempt s = .done r s' ∧
      (c.recording.notifyAll depth id).attempt (s, []) = .done r (s', log)) ∧
    ∃ log r s', g.ids.Pairwise (· < ·) ∧ (∀ i, i ∈ g.ids ↔ g.contains i) ∧
      Traced c g g.ids s log r s' ∧
      c.notifyEvery.attempt s = .done r s' ∧
      c.recording.notifyEvery.attempt (s, []) = .done r (s', log) := by
  have hsound := Graph.sound_of_built hg
  constructor
  · intro id depth hid hd
    obtain ⟨p, hp⟩ := Graph.exists_property hid
    have horder : ∀ i ∈ g.order id, g.contains i := fun i hi =>
      Graph.contains_of_mem_order hsound hid hi
    obtain ⟨log, r, s', htraced, -⟩ := exists_traced hc horder hs
    refine ⟨g.forest.descendants id, g.forest.ancestors id, log, r, s', ?_,
      Forest.popped_descendants hsound.forest id, ?_, htraced, hc.notifyAll hsound hid hd hs htraced,
      hc.recording.notifyAll hsound hid hd hs (htraced.recording [])⟩
    · rw [Graph.descendants, hp]
      rfl
    · rw [Graph.ancestors, hp]
      rfl
  · have hids : ∀ i, i ∈ g.ids ↔ g.contains i := fun i => by
      rw [Graph.ids, List.mem_filter, List.mem_range]
      exact ⟨And.right, fun h => ⟨Graph.lt_of_contains h, h⟩⟩
    obtain ⟨log, r, s', htraced, -⟩ := exists_traced hc (fun i hi => (hids i).mp hi) hs
    refine ⟨log, r, s', List.pairwise_lt_range.filter _, hids, htraced, ?_, ?_⟩
    · subst hs
      exact htraced.forM hc rfl
    · subst hs
      exact (htraced.recording []).forM hc.recording rfl

/-- A node below a node below the root, with an observer for each. -/
def chain : Graph Nat :=
  let nodes := ((Graph.bare.apply (.insert "a" (.data [.field "a"]) (some Graph.root))).2.apply
    (.insert "b" (.data [.field "a", .field "b"]) (some 1))).2
  let lowest := (nodes.settle (nodes.observe 2 0)).2
  let middle := (lowest.settle (lowest.observe 1 1)).2
  (middle.settle (middle.observe Graph.root 2)).2

/-- The state is the graph; the second observer fails. -/
def refusing : Cascade (Graph Nat) Nat where
  graph := id
  value _ := pure .null
  call o _ _ := if o = 1 then Run.fail (.callback "refused") else pure ()

/-- The cascade of the middle node goes no further than to its observer, which fails. -/
theorem traced_of_calm_refused : chain.Built ∧ refusing.Calm chain ∧
    Traced refusing chain [2, 1, Graph.root] chain [⟨0, .null, .null⟩, ⟨1, .null, .null⟩]
      (.error (.callback "refused")) chain := by
  have hbuilt : chain.Built :=
    .observe (.observe (.observe (.apply (.apply .bare _) _) _ _) _ _) _ _
  have hcalm : refusing.Calm chain := by
    refine ⟨fun _ hs => hs, fun {i p o s} current previous _ _ hs => ?_⟩
    show (if o = 1 then Run.fail (.callback "refused") else pure ()).EndsIn _ s
    split
    · exact hs
    · exact hs
  obtain ⟨hall, -⟩ := traced_of_calm (s := chain) hbuilt hcalm rfl
  obtain ⟨below, above, log, r, s', hbelow, -, habove, htraced, -, hrun⟩ :=
    hall 1 4 (by decide) (by decide)
  have hcalls : (refusing.recording.notifyAll 4 1).attempt (chain, []) = .done
      (.error (.callback "refused")) (chain, [⟨0, .null, .null⟩, ⟨1, .null, .null⟩]) := rfl
  rw [hcalls] at hrun
  cases hbelow
  cases habove
  cases hrun
  exact ⟨hbuilt, hcalm, htraced⟩

end Cascade

end ReactiveView
