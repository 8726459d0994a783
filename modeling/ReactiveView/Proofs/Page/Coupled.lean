import ReactiveView.Proofs.Page.InPlace
import ReactiveView.Proofs.Page.Spelling
/-!
# Pages coupled to one expression

On a page that is coupled to an expression, everything that hears of the data is a binding of this
expression, and everything that hears of events writes a `value` attribute back to it. No program
runs on such a page, and every part that is bound can be written in place. So a cascade never fails:
it writes the value of the expression into all parts that are bound. A write to the data then fails
before it has changed anything, or else it is done, unless the depth is too small for the graph.

Results:
* `notifyAll_ends`: a cascade on a coupled page.
* `assign_ends`, `set_ends`, `dispatch_ends`: writes and events keep a page coupled, and fail
  without a change of the data.
* `dispatch_back`: an event that comes with a text writes it to the data and to all that is bound.
-/
namespace ReactiveView

namespace Page

open ReactiveView.Graph Run Surface

variable {σ : Type} {e : Expression} {id : Nat} {os os' : List (Observer σ)} {p p' p'' : Page σ}

/-- The observer that a part of a node becomes when an expression of the page is bound to it. -/
def bindingOf (e : Expression) (i : Nat) (part : Target) : Observer σ :=
  .binding ⟨i, part, e, .page⟩

/-- The listener that writes the value of an element back to an expression of the page. -/
def backListener (e : Expression) : Listener σ := .writeBack (.attributeNamed "value") e .page

/-- A page on which nothing but an expression that leads to a node of the data is bound, one way or
both ways. -/
structure Coupled (e : Expression) (id : Nat) (p : Page σ) : Prop where
  named : Named p
  read : ∃ source, Expression.read source = .ok e
  call : e.isCall = false
  walk : p.graph.walk root e.path.keys = some id
  live : p.live = true
  observer : ∀ n, ∀ o ∈ p.graph.observers n,
    n = id ∧ ∃ i part, o = bindingOf e i part ∧ part.Open p.surface i
  listener : ∀ i event ls, p.surface.listeners i event = .ok ls → ls = [] ∨ ls = [backListener e]

/-- A page with the same bindings and listeners, in the same places. -/
structure Steady (p p' : Page σ) : Prop where
  shape : SameShape p.graph p'.graph
  observers : ∀ n, p'.graph.observers n = p.graph.observers n
  tree : Retouched (fun _ => True) p.surface p'.surface
  listeners : ∀ i event, p'.surface.listeners i event = p.surface.listeners i event
  live : p'.live = p.live

theorem Steady.refl (p : Page σ) : Steady p p :=
  ⟨.refl _, fun _ => rfl, .refl _ _, fun _ _ => rfl, rfl⟩

theorem Steady.trans (h : Steady p p') (h' : Steady p' p'') : Steady p p'' where
  shape := h.shape.trans h'.shape
  observers n := (h'.observers n).trans (h.observers n)
  tree := h.tree.trans h'.tree
  listeners i event := (h'.listeners i event).trans (h.listeners i event)
  live := h'.live.trans h.live

theorem Coupled.steady (hp : Coupled e id p) (h : Steady p p') (hnamed : Named p') :
    Coupled e id p' where
  named := hnamed
  read := hp.read
  call := hp.call
  walk := by rw [h.shape.walk, hp.walk]
  live := h.live.trans hp.live
  observer n o ho := by
    rw [h.observers] at ho
    obtain ⟨hn, i, part, heq, hopen⟩ := hp.observer n o ho
    exact ⟨hn, i, part, heq, hopen.retouched h.tree⟩
  listener i event ls hls := hp.listener i event ls ((h.listeners i event).symm.trans hls)

theorem Coupled.evaluate (hp : Coupled e id p) (run : Program σ → Run (Page σ) Value) :
    e.evaluate (names run .page) p = .done (p.valueAt e.path) p := by
  obtain ⟨source, hread⟩ := hp.read
  exact evaluate_of_walk hp.named hread hp.call hp.walk run

/-! ## Cascades -/

/-- A page that was drawn anew: the observers `os` have written the value of the expression into
their parts, and what has shown this value already still shows it. -/
structure Redraws (e : Expression) (os : List (Observer σ)) (p p' : Page σ) : Prop where
  same : ∃ surface, p' = { p with surface }
  tree : Retouched (fun _ => True) p.surface p'.surface
  listeners : ∀ i event, p'.surface.listeners i event = p.surface.listeners i event
  kept : ∀ i (part : Target), part.Shows p.surface i (p.valueAt e.path).render →
    part.Shows p'.surface i (p.valueAt e.path).render
  shown : ∀ i part, bindingOf e i part ∈ os → part.Shows p'.surface i (p.valueAt e.path).render

theorem Redraws.refl (e : Expression) (p : Page σ) : Redraws e [] p p :=
  ⟨⟨p.surface, rfl⟩, .refl _ _, fun _ _ => rfl, fun _ _ h => h, nofun⟩

theorem Redraws.graph (h : Redraws e os p p') : p'.graph = p.graph := by
  obtain ⟨surface, rfl⟩ := h.same
  rfl

theorem Redraws.data (h : Redraws e os p p') : p'.data = p.data := by
  obtain ⟨surface, rfl⟩ := h.same
  rfl

theorem Redraws.valueAt (h : Redraws e os p p') : p'.valueAt e.path = p.valueAt e.path := by
  rw [Page.valueAt, Page.valueAt, h.data]

theorem Redraws.trans (h : Redraws e os p p') (h' : Redraws e os' p' p'') :
    Redraws e (os ++ os') p p'' := by
  have hvalue := h.valueAt
  refine ⟨?_, h.tree.trans h'.tree,
    fun i event => (h'.listeners i event).trans (h.listeners i event),
    fun i part hshows => ?_, fun i part hmem => ?_⟩
  · obtain ⟨_, rfl⟩ := h.same
    obtain ⟨surface, rfl⟩ := h'.same
    exact ⟨surface, rfl⟩
  · exact hvalue ▸ h'.kept i part (hvalue ▸ h.kept i part hshows)
  · rcases List.mem_append.mp hmem with hmem | hmem
    · exact hvalue ▸ h'.kept i part (hvalue ▸ h.shown i part hmem)
    · exact hvalue ▸ h'.shown i part hmem

theorem Redraws.mono (h : Redraws e os p p') (hos : ∀ o ∈ os', o ∈ os) : Redraws e os' p p' :=
  { h with shown := fun i part hmem => h.shown i part (hos _ hmem) }

theorem Redraws.steady (h : Redraws e os p p') : Steady p p' where
  shape := by rw [h.graph]; exact .refl _
  observers n := by rw [h.graph]
  tree := h.tree
  listeners := h.listeners
  live := by
    obtain ⟨surface, rfl⟩ := h.same
    rfl

theorem Redraws.coupled (h : Redraws e os p p') (hp : Coupled e id p) : Coupled e id p' := by
  refine hp.steady h.steady ?_
  have hsound := h.tree.sound hp.named.surface
  obtain ⟨surface, rfl⟩ := h.same
  exact hp.named.withSurface hsound

variable (run : Program σ → Run (Page σ) Value)

/-- A binding that is called writes the value of the expression. -/
theorem callObserver_coupled (hp : Coupled e id p) {n : Nat} {o : Observer σ}
    (ho : o ∈ p.graph.observers n) (current previous : Value) :
    ∃ p', callObserver run o current previous p = .done () p' ∧ Redraws e [o] p p' := by
  obtain ⟨-, i, part, rfl, hopen⟩ := hp.observer n o ho
  obtain ⟨surface, hwrite, hwrites⟩ :=
    writeTarget_of_open hp.named.surface hopen (p.valueAt e.path).render
  refine ⟨{ p with surface }, (bind_of_done (hp.evaluate run)).trans hwrite, ⟨surface, rfl⟩,
    hwrites.tree.mono fun _ _ => trivial, hwrites.listeners, hwrites.keeps, fun j part' hmem => ?_⟩
  cases List.mem_singleton.mp hmem
  exact hwrites.shows

theorem forM_callObserver (hp : Coupled e id p) {n : Nat}
    (hos : ∀ o ∈ os, o ∈ p.graph.observers n) (current previous : Value) :
    ∃ p', os.forM (fun o => callObserver run o current previous) p = .done () p' ∧
      Redraws e os p p' := by
  induction os generalizing p with
  | nil => exact ⟨p, rfl, .refl e p⟩
  | cons o os ih =>
    obtain ⟨p₁, hfirst, hdrawn⟩ :=
      callObserver_coupled run hp (hos o List.mem_cons_self) current previous
    obtain ⟨p', hrest, hdrawn'⟩ := ih (hdrawn.coupled hp) fun o' ho' => by
      rw [hdrawn.graph]
      exact hos o' (List.mem_cons_of_mem _ ho')
    exact ⟨p', (bind_of_done hfirst).trans hrest, hdrawn.trans hdrawn'⟩

/-- A node that is notified has its bindings called, if it has any. -/
theorem notify_coupled (hp : Coupled e id p) {n : Nat} (hn : p.graph.contains n) :
    ∃ p', (cascade run).notify n p = .done () p' ∧ Redraws e (p.graph.observers n) p p' := by
  obtain ⟨property, hproperty⟩ := Option.isSome_iff_exists.mp hn
  have hread : p.graph.property n = .ok property := property_eq_ok.mpr hproperty
  have hobservers : p.graph.observers n = property.observers := by
    rw [Graph.observers, hproperty]
    rfl
  have hlook : (cascade run).notify n p = (if property.observers.isEmpty then pure ()
      else do
        let current ← (cascade run).value property.source
        property.observers.forM fun o =>
          (cascade run).call o current (property.previous.getD current) : Run (Page σ) Unit) p := by
    show (Run.ofExcept (p.graph.property n) >>= _) p = _
    rw [hread]
    rfl
  rw [hlook, hobservers]
  split
  · next hempty =>
    rw [List.isEmpty_iff.mp hempty]
    exact ⟨p, rfl, .refl e p⟩
  · next hsome =>
    -- only the node of the expression has observers, and this is a node of the data
    obtain ⟨o, ho⟩ := List.exists_mem_of_ne_nil _ fun h => hsome (List.isEmpty_iff.mpr h)
    obtain ⟨rfl, -⟩ := hp.observer n o (hobservers ▸ ho)
    obtain ⟨path, hpath, -⟩ :=
      location?_of_walk hp.named.keyed.grown (location?_root hp.named.keyed.grown) hp.walk
    have hplace : p.graph.place? n = some (property.key, property.source) := by
      rw [place?, hproperty]
      rfl
    have hvalue : (cascade run).value property.source p = .done (p.valueAt _) p :=
      valueOf_location run hplace hpath
    have hmem : ∀ o ∈ property.observers, o ∈ p.graph.observers n := fun o ho => hobservers ▸ ho
    obtain ⟨p', hcalls, hdrawn⟩ :=
      forM_callObserver run hp hmem (p.valueAt _) (property.previous.getD (p.valueAt _))
    exact ⟨p', (bind_of_done hvalue).trans hcalls, hdrawn⟩

theorem forM_notify (hp : Coupled e id p) {ns : List Nat} (hns : ∀ n ∈ ns, p.graph.contains n) :
    ∃ p', ns.forM (cascade run).notify p = .done () p' ∧
      Redraws e (ns.flatMap p.graph.observers) p p' := by
  induction ns generalizing p with
  | nil => exact ⟨p, rfl, .refl e p⟩
  | cons n ns ih =>
    obtain ⟨p₁, hfirst, hdrawn⟩ := notify_coupled run hp (hns n List.mem_cons_self)
    obtain ⟨p', hrest, hdrawn'⟩ := ih (hdrawn.coupled hp) fun m hm => by
      rw [hdrawn.graph]
      exact hns m (List.mem_cons_of_mem _ hm)
    rw [hdrawn.graph] at hdrawn'
    exact ⟨p', (bind_of_done hfirst).trans hrest, hdrawn.trans hdrawn'⟩

/-- A cascade never fails, and it is done if its depth exceeds the size of the graph. The bindings
of its node are written. -/
theorem notifyAll_ends (hp : Coupled e id p) {n : Nat} (hn : p.graph.contains n)
    (levels depth : Nat) : ((cascade (interpret levels)).notifyAll depth n p).Ends
      (Redraws e (p.graph.observers n) p) (fun _ => False) (depth ≤ p.graph.forest.size) := by
  have hsound := hp.named.keyed.grown.sound
  have hcontains : ∀ m ∈ p.graph.order n, p.graph.contains m :=
    fun m hm => contains_of_mem_order hsound hn hm
  obtain ⟨p', hrow, hdrawn⟩ := forM_notify (interpret levels) hp hcontains
  have hmem : n ∈ p.graph.order n := List.mem_append_right _ List.mem_cons_self
  have hdrawn : Redraws e (p.graph.observers n) p p' :=
    hdrawn.mono fun o ho => List.mem_flatMap.mpr ⟨n, hmem, ho⟩
  -- what a cascade passes through are pages that are drawn anew
  have hkeeps : ∀ m ∈ p.graph.order n, ∀ s s', (∃ os, Redraws e os p s) →
      (cascade (interpret levels)).notify m s = .done () s' → ∃ os, Redraws e os p s' := by
    rintro m hm s s' ⟨os, hs⟩ hdone
    have hm' : s.graph.contains m := hs.graph ▸ hcontains m hm
    obtain ⟨s₁, hs₁, hstep⟩ := notify_coupled (interpret levels) (hs.coupled hp) hm'
    rw [hdone] at hs₁
    cases hs₁
    exact ⟨_, hs.trans hstep⟩
  have hdeep : ∀ d, p.graph.forest.size < d →
      (cascade (interpret levels)).notifyAll d n p = .done () p' := by
    intro d hd
    refine (Cascade.notifyAll_eq_forM_of_sound (I := fun s => ∃ os, Redraws e os p s) hsound ?_
      hn hd hkeeps ⟨[], .refl e p⟩).trans hrow
    rintro s ⟨os, hs⟩
    exact hs.steady.shape
  -- and a cascade that ends does not depend on its depth
  have hsame := @tracks_notifyAll σ .all p _ _ (tracks_interpret (Nat.le_refl levels)) _ _
    (Nat.le_max_left depth (p.graph.forest.size + 1)) n
  have henough := hdeep (max depth (p.graph.forest.size + 1)) (by omega)
  cases h : (cascade (interpret levels)).notifyAll depth n p with
  | done a s =>
    have heq := (hsame.done h).1
    rw [henough] at heq
    cases heq
    exact hdrawn
  | failed err s =>
    have heq := (hsame.failed h).1
    rw [henough] at heq
    cases heq
  | exhausted =>
    refine Nat.le_of_not_lt fun hd => ?_
    rw [hdeep depth hd] at h
    cases h

/-! ## Writes -/

variable {run}

theorem write_of_error {depth : Nat} {path : Path} {x : Value} {err : Error}
    (h : p.data.set path x = .error err) : write run depth path x p = .failed err p := by
  refine bind_of_failed ?_
  simp only [Run.edit, h]

theorem write_of_unresolved {depth : Nat} {path : Path} {x old data : Value}
    (h : p.data.set path x = .ok (old, data)) (hid : p.graph.resolve path = none) :
    write run depth path x p = .done none { p with data } := by
  have hlook : Run.look (fun p : Page σ => p.graph.resolve path) { p with data }
      = .done none { p with data } := congrArg (Outcome.done · _) hid
  rw [write_of_set h, bind_of_done hlook]
  rfl

theorem write_of_resolved {depth n : Nat} {path : Path} {x old data : Value}
    {graph : Graph (Observer σ)} (h : p.data.set path x = .ok (old, data))
    (hid : p.graph.resolve path = some n) (hgraph : p.graph.setPrevious n old = .ok graph) :
    write run depth path x p
      = ((cascade run).notifyAll depth n >>= fun _ => pure (some n)) { p with data, graph } := by
  have hlook : Run.look (fun p : Page σ => p.graph.resolve path) { p with data }
      = .done (some n) { p with data } := congrArg (Outcome.done · _) hid
  have hrecord : onGraph (fun g => g.settle (g.setPrevious n old)) { p with data }
      = .done () { p with data, graph } := by
    simp only [onGraph, Run.edit, hgraph, Graph.settle]
  rw [write_of_set h, bind_of_done hlook]
  exact bind_of_done hrecord

/-- A page after a write that was done: the bindings of the expression show its value if the path
leads to its node. -/
structure Assigned (e : Expression) (id : Nat) (path : Path) (x : Value) (p p' : Page σ) :
    Prop where
  coupled : Coupled e id p'
  steady : Steady p p'
  set : ∃ old, p.data.set path x = .ok (old, p'.data)
  shown : p.graph.resolve path = some id → ∀ i part, bindingOf e i part ∈ p.graph.observers id →
    part.Shows p'.surface i (p'.valueAt e.path).render

/-- A write fails without a change, or it is done, unless the depth is too small. -/
theorem assign_ends (hp : Coupled e id p) {path : Path} (hpath : path ≠ []) (x : Value)
    (levels depth : Nat) : (assign (interpret levels) depth path x p).Ends
      (Assigned e id path x p) (· = p) (depth ≤ p.graph.forest.size) := by
  cases hfree : p.isReadOnly path with
  | true =>
    rw [assign_of_refused hfree]
    rfl
  | false =>
    rw [assign_of_free hfree]
    refine ends_bind_pure ?_ ()
    cases hset : p.data.set path x with
    | error err =>
      rw [write_of_error hset]
      rfl
    | ok r =>
      obtain ⟨old, data⟩ := r
      cases hid : p.graph.resolve path with
      | none =>
        rw [write_of_unresolved hset hid]
        have hsteady : Steady p { p with data } :=
          ⟨.refl _, fun _ => rfl, .refl _ _, fun _ _ => rfl, rfl⟩
        refine ⟨hp.steady hsteady (hp.named.change (.write ⟨hpath, hfree⟩ hset)), hsteady,
          ⟨old, hset⟩, fun hsome => ?_⟩
        rw [hid] at hsome
        cases hsome
      | some n =>
        have hn := contains_of_resolve hp.named.keyed.grown hid
        obtain ⟨graph, hgraph⟩ : ∃ graph, p.graph.setPrevious n old = .ok graph :=
          ⟨_, by rw [Graph.setPrevious, if_pos hn]⟩
        have hwritten : Written p path x n { p with data, graph } :=
          ⟨old, data, graph, hset, hgraph, rfl⟩
        have hsteady : Steady p { p with data, graph } :=
          ⟨sameShape_setPrevious hgraph, observers_setPrevious hgraph, .refl _ _, fun _ _ => rfl,
            rfl⟩
        have hcoupled : Coupled e id { p with data, graph } :=
          hp.steady hsteady (hwritten.named hp.named hpath hfree)
        have hcascade := notifyAll_ends hcoupled
          ((hsteady.shape.contains n).trans hn) levels depth
        rw [write_of_resolved hset hid hgraph]
        refine ends_bind_pure ?_ (some n)
        refine hcascade.imp (fun p' hdrawn => ?_) (fun _ => False.elim)
          fun h => Nat.le_trans h (Nat.le_of_eq hsteady.shape.size)
        refine ⟨hdrawn.coupled hcoupled, hsteady.trans hdrawn.steady, ⟨old, ?_⟩,
          fun hsome i part hmem => ?_⟩
        · rw [hdrawn.data]
          exact hset
        · rw [hid] at hsome
          cases hsome
          rw [hdrawn.valueAt]
          exact hdrawn.shown i part (by rwa [observers_setPrevious hgraph])

/-- A set keeps a page coupled, and fails without a change. -/
theorem set_ends (hp : Coupled e id p) (source : String) (x : Value) (levels depth : Nat) :
    (set (interpret levels) depth source x p).Ends (fun p' => Coupled e id p' ∧ Steady p p')
      (· = p) (depth ≤ p.graph.forest.size) := by
  unfold Page.set
  cases hread : Expression.read source with
  | error err => rfl
  | ok e' =>
    show (e'.assign (scope (interpret levels) depth .page) x p).Ends _ _ _
    unfold Expression.assign
    cases htarget : e'.target with
    | error err => rfl
    | ok path =>
      obtain rfl := Expression.eq_path_of_target htarget
      show (assign (interpret levels) depth e'.path x p).Ends _ _ _
      exact (assign_ends hp (List.cons_ne_nil _ _) x levels depth).imp
        (fun p' h => ⟨h.coupled, h.steady⟩) (fun _ h => h) fun h => h

/-! ## Events -/

/-- What is written back is the value of the element. -/
theorem callListener_back (hp : Coupled e id p) {node : Nat} {value : Option String}
    (hvalue : p.surface.attributeValue node "value" = .ok value) (depth : Nat) (event : String) :
    callListener run depth ⟨event, node⟩ (backListener e) p
      = assign run depth e.path (.text (value.getD "")) p := by
  have htarget : e.target = .ok e.path := by
    rw [Expression.target, hp.call]
    rfl
  have hread : readTarget node (.attributeNamed "value") p
      = .done (value.getD "") p := askSurface_bind hvalue _
  have hlive : Run.look (fun p : Page σ => p.live) p = .done true p :=
    congrArg (Outcome.done · p) hp.live
  refine (bind_of_done hlive).trans ?_
  rw [if_pos rfl]
  refine (bind_of_done hread).trans ?_
  rw [Expression.assign, htarget]
  rfl

/-- The listeners of a node for an event, called in order. -/
def hear (run : Program σ → Run (Page σ) Value) (depth node : Nat) (event : String) :
    Run (Page σ) Unit := do
  let listeners ← askSurface fun s => s.listeners node event
  listeners.forM (callListener run depth ⟨event, node⟩)

theorem hear_of_back (hp : Coupled e id p) {node : Nat} {event : String} {value : Option String}
    (hlisteners : p.surface.listeners node event = .ok [backListener e])
    (hvalue : p.surface.attributeValue node "value" = .ok value) (levels depth : Nat) :
    (hear (interpret levels) depth node event p).Ends
      (Assigned e id e.path (.text (value.getD "")) p) (· = p) (depth ≤ p.graph.forest.size) := by
  unfold hear
  rw [askSurface_bind hlisteners]
  refine ends_bind_pure ?_ PUnit.unit
  rw [callListener_back hp hvalue]
  exact assign_ends hp (List.cons_ne_nil _ _) _ levels depth

/-- An event that is heard keeps a page coupled, and fails without a change. -/
theorem hear_ends (hp : Coupled e id p) (node : Nat) (event : String) (levels depth : Nat) :
    (hear (interpret levels) depth node event p).Ends (fun p' => Coupled e id p' ∧ Steady p p')
      (· = p) (depth ≤ p.graph.forest.size) := by
  cases hlisteners : p.surface.listeners node event with
  | error err =>
    have hask : askSurface (fun s => s.listeners node event) p = .failed err p := by
      show Run.ofExcept (p.surface.listeners node event) p = _
      rw [hlisteners]
      rfl
    rw [hear, bind_of_failed hask]
    rfl
  | ok ls =>
    rcases hp.listener node event ls hlisteners with rfl | rfl
    · rw [hear, askSurface_bind hlisteners]
      exact ⟨hp, .refl p⟩
    · obtain ⟨value, hvalue⟩ : ∃ value, p.surface.attributeValue node "value" = .ok value := by
        unfold Surface.listeners at hlisteners
        unfold attributeValue content Surface.content?
        cases hitem : p.surface.forest.content? node with
        | none =>
          rw [hitem] at hlisteners
          cases hlisteners
        | some item => exact ⟨_, rfl⟩
      exact (hear_of_back hp hlisteners hvalue levels depth).imp
        (fun p' h => ⟨h.coupled, h.steady⟩) (fun _ h => h) fun h => h

theorem Coupled.setAttribute (hp : Coupled e id p) {node : Nat} {name value : String}
    {surface : Surface (Listener σ)} (h : p.surface.setAttribute node name value = .ok surface) :
    Coupled e id { p with surface } ∧ Steady p { p with surface } := by
  have hsteady : Steady p { p with surface } := by
    refine ⟨.refl _, fun _ => rfl, (retouched_setAttribute h).mono fun _ _ => trivial,
      fun i event => ?_, rfl⟩
    have hlisteners := listeners_setAttribute p.surface node name value i event
    simpa only [Surface.apply, h, Surface.settle] using hlisteners
  exact ⟨hp.steady hsteady (hp.named.withSurface (sound_setAttribute hp.named.surface h)), hsteady⟩

/-- An event keeps a page coupled, and fails without a change of the data. -/
theorem dispatch_ends (hp : Coupled e id p) (node : Nat) (event : String) (value : Option String)
    (levels depth : Nat) : (dispatch (interpret levels) depth node event value p).Ends
      (fun p' => Coupled e id p' ∧ Steady p p')
      (fun p' => Coupled e id p' ∧ Steady p p' ∧ p'.data = p.data)
      (depth ≤ p.graph.forest.size) := by
  cases value with
  | none =>
    show (hear (interpret levels) depth node event p).Ends _ _ _
    refine (hear_ends hp node event levels depth).imp (fun _ h => h) (fun s h => ?_) fun h => h
    rw [h]
    exact ⟨hp, .refl p, rfl⟩
  | some v =>
    show ((editSurface (.setAttribute node "value" v) >>= fun _ =>
      hear (interpret levels) depth node event) p).Ends _ _ _
    cases hset : p.surface.setAttribute node "value" v with
    | error err =>
      have hedit : editSurface (.setAttribute node "value" v) p = .failed err p := by
        simp only [editSurface, onSurface, Run.edit, Surface.apply, hset, Surface.settle]
      rw [bind_of_failed hedit]
      exact ⟨hp, .refl p, rfl⟩
    | ok surface =>
      obtain ⟨hp₁, hsteady⟩ := hp.setAttribute hset
      rw [bind_of_done (editSurface_setAttribute hset)]
      refine (hear_ends hp₁ node event levels depth).imp
        (fun p' h => ⟨h.1, hsteady.trans h.2⟩) (fun s h => ?_) fun h => h
      rw [h]
      exact ⟨hp₁, hsteady, rfl⟩

/-- An event with a text, on an element that writes back: the text is in the data, and all that is
bound shows it; or the data is as it was. -/
theorem dispatch_back (hp : Coupled e id p) {node : Nat} {event : String}
    (hnode : p.surface.IsElement node)
    (hlisteners : p.surface.listeners node event = .ok [backListener e]) (text : String)
    (levels depth : Nat) : (dispatch (interpret levels) depth node event (some text) p).Ends
      (fun p' => Coupled e id p' ∧ p'.valueAt e.path = .text text ∧
        ∀ i part, bindingOf e i part ∈ p.graph.observers id → part.Shows p'.surface i text)
      (fun p' => p'.data = p.data) (depth ≤ p.graph.forest.size) := by
  obtain ⟨surface, hset, hwrites⟩ :=
    Target.writes_attribute hnode (Target.open_value hnode).2 text
  obtain ⟨hp₁, hsteady⟩ := hp.setAttribute hset
  have hvalue := attributeValue_of_showsAttribute hwrites.shows
  show ((editSurface (.setAttribute node "value" text) >>= fun _ =>
    hear (interpret levels) depth node event) p).Ends _ _ _
  rw [bind_of_done (editSurface_setAttribute hset)]
  refine (hear_of_back hp₁ ((hwrites.listeners node event).trans hlisteners) hvalue levels
    depth).imp (fun p' hp' => ?_) (fun s h => by rw [h]) fun h => h
  · obtain ⟨old, hdata⟩ := hp'.set
    have hread : p'.valueAt e.path = .text text := by
      rw [valueAt, (Value.at?_setFrom hdata).1]
      rfl
    refine ⟨hp'.coupled, hread, fun i part hmem => ?_⟩
    have hshows := hp'.shown (resolve_of_walk hp.walk) i part hmem
    rwa [hread] at hshows

/-! ## Any number of events and sets -/

/-- One event on a node, or one set, which may fail. -/
inductive Touched : Page σ → Page σ → Prop
  | dispatch {p p' : Page σ} {levels depth node : Nat} {event : String} {value : Option String}
      {r : Except Error Unit}
      (h : (dispatch (interpret levels) depth node event value).attempt p = .done r p') :
      Touched p p'
  | set {p p' : Page σ} {levels depth : Nat} {source : String} {x : Value} {r : Except Error Unit}
      (h : (set (interpret levels) depth source x).attempt p = .done r p') : Touched p p'

theorem Coupled.touched (hp : Coupled e id p) (h : Touched p p') :
    Coupled e id p' ∧ Steady p p' := by
  cases h with
  | @dispatch levels depth node event value r hrun =>
    have hends := dispatch_ends hp node event value levels depth
    rcases attempt_eq_done hrun with ⟨a, -, hdone⟩ | ⟨err, -, hfailed⟩
    · rw [hdone] at hends
      exact hends
    · rw [hfailed] at hends
      exact ⟨hends.1, hends.2.1⟩
  | @set levels depth source x r hrun =>
    have hends := set_ends hp source x levels depth
    rcases attempt_eq_done hrun with ⟨a, -, hdone⟩ | ⟨err, -, hfailed⟩
    · rw [hdone] at hends
      exact hends
    · rw [hfailed] at hends
      cases hends
      exact ⟨hp, .refl p⟩

/-- A page stays coupled through any number of events and sets. -/
theorem Coupled.later (hp : Coupled e id p) (h : Relation.ReflTransGen Touched p p') :
    Coupled e id p' ∧ Steady p p' := by
  induction h with
  | refl => exact ⟨hp, .refl p⟩
  | tail _ hstep ih =>
    obtain ⟨hp', hsteady⟩ := ih.1.touched hstep
    exact ⟨hp', ih.2.trans hsteady⟩

end Page

end ReactiveView
