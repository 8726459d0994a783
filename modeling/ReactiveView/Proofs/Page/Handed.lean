import ReactiveView.Proofs.Page.Coherence
import ReactiveView.Proofs.Page.Topology
/-!
# The last value that an observer is handed

An observer may write while it is called, and so may those that its write calls in turn. A write in
the middle of a cascade has a cascade of its own, which calls the observers of every node that it
changes. So the last call of an observer comes when its node has the value that it keeps.

But a notification reads once, for all observers of the node. When one of them writes to the node,
those behind it are called again with the new value first, and then, as the outer notification goes
on, with the value that was read before. So it is not the value handed that is the final one, but the
value of the node at the call; and the two are the same where no observer in front, on the same node,
writes anything.

Observers note their calls here: what they are handed, and what the value of their node is then.

Results:
* `Handles.trans`: what the calls of one run and of the next say together.
* `handles_notify`, `handles_cascade`, `handles_write`: what is called, and with what.
* `handed_of_tended`: the last calls of a write.
* `stale_behind_writer`: an observer that is left with a value that its node no longer has.
-/
namespace ReactiveView

/-- A call of an observer: the number of the observer, the value that it is handed, and the value
that its node has when it is called. -/
structure Handing where
  observer : Nat
  handed : Value
  actual : Value

namespace Handing

/-- The last call of an observer. -/
def lastOf (k : Nat) (calls : List Handing) : Option Handing :=
  (calls.filter (·.observer == k)).getLast?

theorem lastOf_append (k : Nat) (calls calls' : List Handing) :
    lastOf k (calls ++ calls') = (lastOf k calls').or (lastOf k calls) := by
  rw [lastOf, List.filter_append, List.getLast?_append, lastOf, lastOf]

theorem lastOf_singleton (k : Nat) (c : Handing) :
    lastOf k [c] = if c.observer = k then some c else none := by
  simp only [lastOf, List.filter_cons, List.filter_nil, beq_iff_eq]
  split <;> rfl

theorem mem_of_lastOf {k : Nat} {calls : List Handing} {c : Handing} (h : lastOf k calls = some c) :
    c ∈ calls ∧ c.observer = k := by
  have hmem := List.mem_filter.mp (List.mem_of_getLast? h)
  exact ⟨hmem.1, eq_of_beq hmem.2⟩

end Handing

open Handing

/-- Programs that write nothing. -/
inductive Program.Silent {σ : Type} : Program σ → Prop
  | done (v : Value) : Silent (.done v)
  | fail (e : Error) : Silent (.fail e)
  | look {next : View σ → Program σ} (h : ∀ view, Silent (next view)) : Silent (.look next)
  | update {next : Program σ} (change : σ → σ) (h : Silent next) : Silent (.update change next)

/-- Programs that do nothing but write, and fail when a write fails. The calls that are noted they
leave alone. -/
inductive Program.WritesOnly {τ : Type} : Program (τ × List Handing) → Prop
  | done (v : Value) : WritesOnly (.done v)
  | fail (e : Error) : WritesOnly (.fail e)
  | look {next : View (τ × List Handing) → Program (τ × List Handing)}
      (h : ∀ view, WritesOnly (next view)) : WritesOnly (.look next)
  | update {change : τ × List Handing → τ × List Handing} {next : Program (τ × List Handing)}
      (hkeeps : ∀ host, (change host).2 = host.2) (h : WritesOnly next) :
      WritesOnly (.update change next)
  | write {path : Path} {x : Value} {next : Except Error (Option Nat) → Program (τ × List Handing)}
      (hok : ∀ r, WritesOnly (next (.ok r))) (herror : ∀ e, next (.error e) = .fail e) :
      WritesOnly (.act (.write path x) next)

/-- An observer to be: its node, the path of the data there, and what it does when it is called. -/
structure Watch (τ : Type) where
  node : Nat
  path : Path
  program : Value → Value → Program (τ × List Handing)

/-- The observer, with its number. It notes its calls. -/
def Watch.noting {τ : Type} (w : Watch τ) (k : Nat) (current previous : Value) :
    Program (τ × List Handing) :=
  .look fun view =>
    .update (fun host => (host.1, host.2 ++ [⟨k, current, (view.data.at? w.path).getD .null⟩]))
      (w.program current previous)

namespace Page

open ReactiveView.Graph Run

variable {σ τ : Type} {ws : List (Watch τ)}

/-! ## Observers by number -/

/-- The observers of a node, in order, with their numbers. -/
def numbered (ws : List (Watch τ)) (n : Nat) : List (Watch τ × Nat) :=
  ws.zipIdx.filter (·.1.node == n)

/-- No observer of the node in front of the one with this number writes. -/
def Leads (ws : List (Watch τ)) (n k : Nat) : Prop :=
  ∀ o ∈ numbered ws n, o.2 < k → ∀ current previous, (o.1.program current previous).Silent

theorem mem_numbered {n k : Nat} {w : Watch τ} :
    (w, k) ∈ numbered ws n ↔ ws[k]? = some w ∧ w.node = n := by
  rw [numbered, List.mem_filter, List.mem_zipIdx_iff_getElem?, beq_iff_eq]

theorem pairwise_numbered (ws : List (Watch τ)) (n : Nat) :
    (numbered ws n).Pairwise (·.2 < ·.2) := by
  have hall : ws.zipIdx.Pairwise (·.2 < ·.2) := by
    rw [← List.pairwise_map (f := Prod.snd) (R := (· < ·)), List.zipIdx_map_snd]
    exact List.pairwise_lt_range'
  exact hall.filter _

theorem numbered_append_singleton (w : Watch τ) (n : Nat) :
    numbered (ws ++ [w]) n
      = numbered ws n ++ if w.node = n then [(w, ws.length)] else [] := by
  rw [numbered, List.zipIdx_append, List.filter_append, numbered, Nat.zero_add]
  split
  · next h => simp [h]
  · next h => simp [h]

/-- The observers of a node, as they are registered. -/
def observing (ws : List (Watch τ)) (n : Nat) : List (Observer (τ × List Handing)) :=
  (numbered ws n).map fun o => .watcher (o.1.noting o.2)

/-- A page without computed properties and with plain places, on which these observers and no other
ones are registered. -/
structure Attended (ws : List (Watch τ)) (p : Page (τ × List Handing)) : Prop where
  grown : p.graph.Grown
  plain : ∀ i q, p.graph.location? i = some q → Path.isPlain q
  computed : p.graph.computed = []
  observers : ∀ n, p.graph.observers n = observing ws n
  place : ∀ w ∈ ws, p.graph.location? w.node = some w.path
  writes : ∀ w ∈ ws, ∀ current previous, (w.program current previous).WritesOnly

variable {p p' p'' : Page (τ × List Handing)}

theorem Attended.frame (hp : Attended ws p) (h : Frame p p') : Attended ws p' where
  grown := h.shape.grown hp.grown
  plain i q hi := hp.plain i q ((h.shape.location i).symm.trans hi)
  computed := h.shape.computed.trans hp.computed
  observers n := (h.observers n).trans (hp.observers n)
  place w hw := (h.shape.location w.node).trans (hp.place w hw)
  writes := hp.writes

/-- A path that resolves leads to the node of the data with its keys. -/
theorem Attended.resolve (hp : Attended ws p) {path : Path} {id : Nat}
    (hid : p.graph.resolve path = some id) :
    Path.isPlain path ∧ p.graph.walk root path.keys = some id ∧
      ∃ q, p.graph.location? id = some q := by
  have hdata : id ∉ p.graph.computed := hp.computed ▸ List.not_mem_nil
  obtain ⟨hwalk, q, hq, hkeys⟩ := walk_resolve hp.grown hid hdata
  exact ⟨Value.isPlain_of_keys_eq hkeys.symm (hp.plain id q hq), hwalk, q, hq⟩

/-! ## What a run does to observers -/

/-- What a run from `p` to `p'` does, in which observers are called as listed. Those that lead are
handed the value that their node has. A node whose observer is called keeps the value that it has at
the last call, and a node whose observer is not called keeps the one that it had. All observers are
called that must be. -/
structure Handles (ws : List (Watch τ)) (must : Nat → Prop) (calls : List Handing)
    (p p' : Page (τ × List Handing)) : Prop where
  frame : Frame p p'
  noted : p'.host.2 = p.host.2 ++ calls
  timely : ∀ c ∈ calls, ∀ w, ws[c.observer]? = some w → Leads ws w.node c.observer →
    c.handed = c.actual
  fresh : ∀ k w, ws[k]? = some w →
    p'.valueAt w.path = ((lastOf k calls).map Handing.actual).getD (p.valueAt w.path)
  called : ∀ k, must k → (lastOf k calls).isSome

variable {must must' : Nat → Prop} {calls calls' : List Handing}

theorem Handles.imp (h : Handles ws must calls p p') (himp : ∀ k, must' k → must k) :
    Handles ws must' calls p p' :=
  { h with called := fun k hk => h.called k (himp k hk) }

/-- A run that keeps the data and calls no one. -/
theorem Handles.silent (hframe : Frame p p') (hhost : p'.host.2 = p.host.2)
    (hdata : p'.data = p.data) : Handles ws (fun _ => False) [] p p' where
  frame := hframe
  noted := by rw [hhost, List.append_nil]
  timely := nofun
  fresh k w _ := by
    rw [valueAt, hdata]
    rfl
  called _ := False.elim

theorem Handles.refl (p : Page (τ × List Handing)) : Handles ws (fun _ => False) [] p p :=
  .silent (.refl p) rfl rfl

/-- The calls of one run, and those of the next. -/
theorem Handles.trans (h : Handles ws must calls p p') (h' : Handles ws must' calls' p' p'') :
    Handles ws (fun k => must k ∨ must' k) (calls ++ calls') p p'' where
  frame := h.frame.trans h'.frame
  noted := by rw [h'.noted, h.noted, List.append_assoc]
  timely c hc := (List.mem_append.mp hc).elim (h.timely c) (h'.timely c)
  fresh k w hw := by
    rw [h'.fresh k w hw, h.fresh k w hw, lastOf_append]
    cases lastOf k calls' <;> rfl
  called k hk := by
    rw [lastOf_append, Option.isSome_or, Bool.or_eq_true]
    exact hk.symm.imp (h'.called k) (h.called k)

/-- A run that notes a call, and goes on. -/
theorem Handles.noting {k : Nat} {w : Watch τ} (hk : ws[k]? = some w) {current : Value}
    (hcurrent : Leads ws w.node k → current = p.valueAt w.path) :
    Handles ws (· = k) [⟨k, current, p.valueAt w.path⟩] p
      { p with host := (p.host.1, p.host.2 ++ [⟨k, current, p.valueAt w.path⟩]) } where
  frame := ⟨.refl _, fun _ => rfl, fun _ hi => hi⟩
  noted := rfl
  timely c hc v hv hleads := by
    obtain rfl := List.mem_singleton.mp hc
    obtain rfl : w = v := Option.some.inj (hk.symm.trans hv)
    exact hcurrent hleads
  fresh j v hv := by
    rw [lastOf_singleton]
    split
    · next hj =>
      obtain rfl : k = j := hj
      obtain rfl : w = v := Option.some.inj (hk.symm.trans hv)
      rfl
    · rfl
  called j hj := by rw [lastOf_singleton, if_pos hj.symm, Option.isSome_some]

/-! ## Runs of programs -/

/-- The policy that admits writes only, to paths that resolve. -/
def Policy.landing : Policy σ
  | p, .write path _ => (p.graph.resolve path).isSome
  | _, _ => false

theorem Policy.landing_enforces : (Policy.landing : Policy σ).Enforces .handsOff := by
  intro p c hc
  cases c <;> trivial

/-- A program that writes nothing keeps the data. -/
theorem data_of_silent {policy : Policy σ} {depth : Nat} {program : Program σ}
    (hsilent : program.Silent) {p p' : Page σ} {v : Value}
    (h : interpretUnder policy depth program p = .done v p') : p'.data = p.data := by
  cases depth with
  | zero => cases h
  | succ depth =>
    rw [interpretUnder] at h
    induction hsilent generalizing p with
    | done v =>
      cases h
      rfl
    | fail e => cases h
    | look _ ih => exact ih p.view h
    | update change _ ih => exact ih (p := { p with host := change p.host }) h

/-- An observer notes that it is called, and then does what it does. -/
theorem interpretUnder_noting {policy : Policy (τ × List Handing)} {depth k : Nat} {w : Watch τ}
    {current previous v : Value}
    (h : interpretUnder policy depth (w.noting k current previous) p = .done v p') :
    interpretUnder policy depth (w.program current previous)
      { p with host := (p.host.1, p.host.2 ++ [⟨k, current, p.valueAt w.path⟩]) } = .done v p' := by
  cases depth with
  | zero => cases h
  | succ depth => exact h

section

variable {depth : Nat}
  (hrun : ∀ {program : Program (τ × List Handing)} {p p' : Page (τ × List Handing)} {v : Value},
    program.WritesOnly → Attended ws p → interpretUnder .landing depth program p = .done v p' →
    ∃ calls, Handles ws (fun _ => False) calls p p')

include hrun

/-- The call of one observer. The data stays if the observer writes nothing. -/
theorem handles_call (hp : Attended ws p) {k : Nat} {w : Watch τ} (hk : ws[k]? = some w)
    {current previous : Value} (hcurrent : Leads ws w.node k → current = p.valueAt w.path)
    (h : callObserver (interpretUnder .landing depth) (.watcher (w.noting k)) current previous p
      = .done () p') :
    ((w.program current previous).Silent → p'.data = p.data) ∧
      ∃ calls, Handles ws (· = k) calls p p' := by
  obtain ⟨v, p₁, hprogram, hdone⟩ := bind_eq_done h
  cases hdone
  have hrest := interpretUnder_noting hprogram
  have hnoting := Handles.noting hk hcurrent
  constructor
  · intro hsilent
    have hdata := data_of_silent hsilent hrest
    exact hdata
  · have hwrites := hp.writes w (List.mem_of_getElem? hk) current previous
    obtain ⟨calls, hhandles⟩ := hrun hwrites (hp.frame hnoting.frame) hrest
    exact ⟨_, (hnoting.trans hhandles).imp fun _ => .inl⟩

/-- Observers of a node called in a row, with the value that the node has unless one of those in
front has written. -/
theorem handles_observers (hp : Attended ws p) {n : Nat} {q : Path}
    (hn : p.graph.location? n = some q) {before os : List (Watch τ × Nat)}
    (hsplit : numbered ws n = before ++ os) {current previous : Value}
    (hcurrent : (∀ o ∈ before, ∀ a b, (o.1.program a b).Silent) → current = p.valueAt q)
    (h : (os.map fun o => Observer.watcher (o.1.noting o.2)).forM
      (fun o => callObserver (interpretUnder .landing depth) o current previous) p = .done () p') :
    ∃ calls, Handles ws (fun k => ∃ w, (w, k) ∈ os) calls p p' := by
  induction os generalizing p before with
  | nil =>
    cases h
    exact ⟨[], (Handles.refl _).imp (by simp)⟩
  | cons o os ih =>
    obtain ⟨w, k⟩ := o
    obtain ⟨_, p₂, hcall, hrest⟩ := bind_eq_done h
    obtain ⟨hk, rfl⟩ := mem_numbered.mp (hsplit ▸ List.mem_append_right _ List.mem_cons_self)
    have hplace := hp.place w (List.mem_of_getElem? hk)
    obtain rfl : w.path = q := Option.some.inj (hplace.symm.trans hn)
    -- those in front have smaller numbers
    have hleads : Leads ws w.node k → ∀ o ∈ before, ∀ a b, (o.1.program a b).Silent := by
      intro hleads o ho
      have hsorted := hsplit ▸ pairwise_numbered ws w.node
      have hlt : o.2 < k := (List.pairwise_append.mp hsorted).2.2 o ho _ List.mem_cons_self
      exact hleads o (hsplit ▸ List.mem_append_left _ ho) hlt
    obtain ⟨hkeeps, calls, hfirst⟩ := handles_call hrun hp hk (fun h => hcurrent (hleads h)) hcall
    have hcurrent' : (∀ o ∈ before ++ [(w, k)], ∀ a b, (o.1.program a b).Silent) →
        current = p₂.valueAt w.path := by
      intro hsilent
      have hlast := hsilent (w, k) (List.mem_append_right _ List.mem_cons_self)
      rw [valueAt, hkeeps (hlast current previous)]
      exact hcurrent fun o ho => hsilent o (List.mem_append_left _ ho)
    have hn' := (hfirst.frame.shape.location w.node).trans hn
    have hsplit' : numbered ws w.node = (before ++ [(w, k)]) ++ os := by
      rw [hsplit, List.append_assoc]
      rfl
    obtain ⟨calls', hothers⟩ := ih (hp.frame hfirst.frame) hn' hsplit' hcurrent' hrest
    refine ⟨_, (hfirst.trans hothers).imp ?_⟩
    rintro j ⟨v, hv⟩
    rcases List.mem_cons.mp hv with heq | hv
    · cases heq
      exact .inl rfl
    · exact .inr ⟨v, hv⟩

/-- The notification of a node calls all its observers. -/
theorem handles_notify (hp : Attended ws p) {n : Nat} {q : Path}
    (hn : p.graph.location? n = some q)
    (h : (cascade (interpretUnder .landing depth)).notify n p = .done () p') :
    ∃ calls, Handles ws (fun k => ∃ w, ws[k]? = some w ∧ w.node = n) calls p p' := by
  obtain ⟨previous, hcalls⟩ := notify_eq_done hn h
  rw [hp.observers] at hcalls
  obtain ⟨calls, hhandles⟩ := handles_observers hrun hp hn (List.nil_append _).symm (fun _ => rfl)
    hcalls
  exact ⟨calls, hhandles.imp fun k ⟨w, hw⟩ => ⟨w, mem_numbered.mpr hw⟩⟩

/-- Nodes notified in a row. -/
theorem handles_nodes (hp : Attended ws p) {ns : List Nat}
    (hns : ∀ n ∈ ns, ∃ q, p.graph.location? n = some q)
    (h : ns.forM (cascade (interpretUnder .landing depth)).notify p = .done () p') :
    ∃ calls, Handles ws (fun k => ∃ w, ws[k]? = some w ∧ w.node ∈ ns) calls p p' := by
  induction ns generalizing p with
  | nil =>
    cases h
    exact ⟨[], (Handles.refl _).imp (by simp)⟩
  | cons n ns ih =>
    obtain ⟨_, p₁, hnotify, hrest⟩ := bind_eq_done h
    obtain ⟨q, hq⟩ := hns n List.mem_cons_self
    obtain ⟨calls, hhandles⟩ := handles_notify hrun hp hq hnotify
    obtain ⟨calls', hhandles'⟩ := ih (hp.frame hhandles.frame) (fun m hm => by
      obtain ⟨r, hr⟩ := hns m (List.mem_cons_of_mem _ hm)
      exact ⟨r, (hhandles.frame.shape.location m).trans hr⟩) hrest
    refine ⟨_, (hhandles.trans hhandles').imp ?_⟩
    rintro k ⟨w, hk, hw⟩
    exact (List.mem_cons.mp hw).imp (fun hw => ⟨w, hk, hw⟩) fun hw => ⟨w, hk, hw⟩

/-- The cascade of a node calls the observers of all nodes that it covers. -/
theorem handles_cascade (hp : Attended ws p) {id : Nat} {q : Path}
    (hid : p.graph.location? id = some q)
    (h : (cascade (interpretUnder .landing depth)).notifyAll depth id p = .done () p') :
    ∃ calls, Handles ws (fun k => ∃ w, ws[k]? = some w ∧ w.node ∈ p.graph.order id) calls p p' := by
  refine handles_nodes hrun hp (fun n hn => location?_of_mem_order hp.grown hid hn) ?_
  refine cascade_eq_done (tracks_interpretUnder_self Policy.landing_enforces depth) hp.grown hid
    (I := fun s => Attended ws s ∧ SameShape p.graph s.graph) (fun _ hs => hs.2) ?_ ⟨hp, .refl _⟩ h
  intro n r s s' hr hs hdone
  obtain ⟨calls, hhandles⟩ := handles_notify hrun hs.1 ((hs.2.location n).trans hr) hdone
  exact ⟨hs.1.frame hhandles.frame, hs.2.trans hhandles.frame.shape⟩

/-- A write to a path that resolves calls the observers of all nodes that it changes. -/
theorem handles_write (hp : Attended ws p) {path : Path} {x : Value} {r : Option Nat} {id : Nat}
    (hid : p.graph.resolve path = some id)
    (h : write (interpretUnder .landing depth) depth path x p = .done r p') :
    ∃ calls, Handles ws (fun k => ∃ w, ws[k]? = some w ∧ w.node ∈ p.graph.order id) calls p p' := by
  obtain ⟨hplain, hwalk, q, hq⟩ := hp.resolve hid
  obtain ⟨p₁, hwritten, hcascade⟩ := write_eq_done hid h
  have hshape := hwritten.sameShape
  obtain ⟨old, data, graph, hset, hgraph, rfl⟩ := hwritten
  have hframe : Frame p { p with data, graph } :=
    ⟨hshape, observers_setPrevious hgraph, fun _ hi => hi⟩
  obtain ⟨calls, hhandles⟩ := handles_cascade hrun (hp.frame hframe)
    ((hshape.location id).trans hq) hcascade
  rw [show graph.order id = p.graph.order id from hshape.order id] at hhandles
  refine ⟨calls, hframe.trans hhandles.frame, hhandles.noted, hhandles.timely, fun k w hk => ?_,
    hhandles.called⟩
  rw [hhandles.fresh k w hk]
  cases hlast : lastOf k calls with
  | some c => rfl
  | none =>
    -- a node that the write changes is covered, so its observer was called
    have hw := hp.place w (List.mem_of_getElem? hk)
    have hcovered : w.node ∉ p.graph.order id := fun hmem => by
      have hcalled := hhandles.called k ⟨w, hk, hmem⟩
      rw [hlast] at hcalled
      cases hcalled
    refine Classical.byContradiction fun hne => hcovered ?_
    exact mem_order_of_prefix hp.grown hwalk (walk_location? hp.grown hw)
      (prefix_of_changed hplain (hp.plain w.node w.path hw) hset hne)

end

/-- What programs do that only write. -/
theorem handles_program {depth : Nat} {program : Program (τ × List Handing)} {v : Value}
    (hprogram : program.WritesOnly) (hp : Attended ws p)
    (h : interpretUnder .landing depth program p = .done v p') :
    ∃ calls, Handles ws (fun _ => False) calls p p' := by
  -- the observers that a write calls run at a smaller depth
  induction depth generalizing program v p p' with
  | zero => cases h
  | succ depth ih =>
    rw [interpretUnder] at h
    induction hprogram generalizing p with
    | done v =>
      cases h
      exact ⟨[], .refl _⟩
    | fail e => cases h
    | look _ ihnext => exact ihnext p.view hp h
    | @update change next hkeeps _ ihnext =>
      have hframe : Frame p { p with host := change p.host } :=
        ⟨.refl _, fun _ => rfl, fun _ hi => hi⟩
      obtain ⟨calls, hhandles⟩ := ihnext (hp.frame hframe) h
      have hsilent : Handles ws (fun _ => False) [] p { p with host := change p.host } :=
        .silent hframe (hkeeps p.host) rfl
      exact ⟨_, (hsilent.trans hhandles).imp fun _ => .inl⟩
    | @write path x next _ herror ihnext =>
      rw [execUnder] at h
      obtain ⟨admits, p₁, hlook, h⟩ := bind_eq_done h
      cases hlook
      split at h
      · next hadmits =>
        obtain ⟨r, p₂, hattempt, hrest⟩ := bind_eq_done h
        rcases attempt_eq_done hattempt with ⟨a, rfl, hwrite⟩ | ⟨e, rfl, -⟩
        · obtain ⟨id, hid⟩ := Option.isSome_iff_exists.mp hadmits
          obtain ⟨calls, hhandles⟩ := handles_write ih hp hid hwrite
          obtain ⟨calls', hhandles'⟩ := ihnext a (hp.frame hhandles.frame) hrest
          exact ⟨_, (hhandles.trans hhandles').imp fun _ => False.elim⟩
        · rw [herror] at hrest
          cases hrest
      · cases h

/-- Writes on which all that they set off resolves are the same under the policy. -/
theorem write_under {depth : Nat} {path : Path} {x : Value}
    (hobeys : write (interpretUnder .landing depth) depth path x p ≠ .exhausted) :
    write (interpretUnder .landing depth) depth path x p = write (interpret depth) depth path x p :=
  (tracks_write (tracks_interpretUnder_interpret Policy.landing_enforces depth) (Nat.le_refl depth)
    trivial).eq_of_ne_exhausted hobeys

/-! ## Pages that are attended -/

/-- A page with data and nothing else: no observer is registered, and no call is noted. -/
def untended (data : Value) (host : τ) : Page (τ × List Handing) :=
  assemble ⟨data, [], [], []⟩ [] [] .blank (host, [])

/-- The pages that come about from data when observers are registered at nodes and values are
written, by the host and by observers on the way, always at paths that resolve to a node. The writes
succeed. -/
inductive Tended (data : Value) (host : τ) : List (Watch τ) → Page (τ × List Handing) → Prop
  | start : Tended data host [] (untended data host)
  | observe {ws : List (Watch τ)} {p : Page (τ × List Handing)} {w : Watch τ}
      {graph : Graph (Observer (τ × List Handing))} (h : Tended data host ws p)
      (hplace : p.graph.location? w.node = some w.path)
      (hwrites : ∀ current previous, (w.program current previous).WritesOnly)
      (hobserve : p.graph.observe w.node (.watcher (w.noting ws.length)) = .ok graph) :
      Tended data host (ws ++ [w]) { p with graph }
  | write {ws : List (Watch τ)} {p p' : Page (τ × List Handing)} {depth : Nat} {path : Path}
      {x : Value} {r : Option Nat} (h : Tended data host ws p)
      (hresolves : (p.graph.resolve path).isSome)
      (hobeys : write (interpretUnder .landing depth) depth path x p ≠ .exhausted)
      (hrun : write (interpret depth) depth path x p = .done r p') : Tended data host ws p'

theorem Attended.start {data : Value} (hdata : data.isPlain) (host : τ) :
    Attended [] (untended data host) := by
  have hplain : Plain (untended data host) := .assemble hdata [] [] .blank (host, [])
  exact {
    grown := hplain.grown
    plain := hplain.location
    computed := computed_ofData data
    observers := observers_ofData data
    place := nofun
    writes := nofun }

theorem Attended.observe (hp : Attended ws p) {w : Watch τ}
    {graph : Graph (Observer (τ × List Handing))} (hplace : p.graph.location? w.node = some w.path)
    (hwrites : ∀ current previous, (w.program current previous).WritesOnly)
    (hobserve : p.graph.observe w.node (.watcher (w.noting ws.length)) = .ok graph) :
    Attended (ws ++ [w]) { p with graph } := by
  have hshape := sameShape_observe hobserve
  exact {
    grown := hshape.grown hp.grown
    plain := fun i q hi => hp.plain i q ((hshape.location i).symm.trans hi)
    computed := hshape.computed.trans hp.computed
    observers := fun n => by
      rw [observers_observe hobserve, hp.observers, observing, observing, numbered_append_singleton,
        List.map_append]
      split <;> rfl
    place := by
      intro v hv
      refine (hshape.location v.node).trans ?_
      rcases List.mem_append.mp hv with hv | hv
      · exact hp.place v hv
      · obtain rfl := List.mem_singleton.mp hv
        exact hplace
    writes := by
      intro v hv
      rcases List.mem_append.mp hv with hv | hv
      · exact hp.writes v hv
      · obtain rfl := List.mem_singleton.mp hv
        exact hwrites }

/-- A write of the host calls the observers of all nodes that it changes. -/
theorem Attended.write (hp : Attended ws p) {depth : Nat} {path : Path} {x : Value} {r : Option Nat}
    {id : Nat} (hid : p.graph.resolve path = some id)
    (hobeys : write (interpretUnder .landing depth) depth path x p ≠ .exhausted)
    (hrun : write (interpret depth) depth path x p = .done r p') :
    ∃ calls, Handles ws (fun k => ∃ w, ws[k]? = some w ∧ w.node ∈ p.graph.order id) calls p p' :=
  handles_write handles_program hp hid ((write_under hobeys).trans hrun)

theorem attended_of_tended {data : Value} (hdata : data.isPlain) {host : τ}
    (h : Tended data host ws p) : Attended ws p := by
  induction h with
  | start => exact .start hdata host
  | observe _ hplace hwrites hobserve ih => exact ih.observe hplace hwrites hobserve
  | write _ hresolves hobeys hrun ih =>
    obtain ⟨id, hid⟩ := Option.isSome_iff_exists.mp hresolves
    obtain ⟨calls, hhandles⟩ := ih.write hid hobeys hrun
    exact ih.frame hhandles.frame

/-- A write that is done has noted some calls, among them one at least of every observer of a node
that its cascade covers. The value that the node of an observer had at the observer's last call is the
one that it has in the end. So the value that the observer was handed last is the final one exactly if
it was the value of the node at that call; and this it was if no observer in front, on the same node,
writes. -/
theorem handed_of_tended {data : Value} (hdata : data.isPlain) {host : τ} (h : Tended data host ws p)
    {depth : Nat} {path : Path} {x : Value} {r : Option Nat} {id : Nat}
    (hid : p.graph.resolve path = some id)
    (hobeys : write (interpretUnder .landing depth) depth path x p ≠ .exhausted)
    (hrun : write (interpret depth) depth path x p = .done r p') :
    ∃ calls, p'.host.2 = p.host.2 ++ calls ∧ ∀ k w, ws[k]? = some w →
      p'.graph.location? w.node = some w.path ∧
      (w.node ∈ p.graph.order id → (lastOf k calls).isSome) ∧
      ∀ c, lastOf k calls = some c → p'.valueAt w.path = c.actual ∧
        (Leads ws w.node k → c.handed = p'.valueAt w.path) := by
  have hp := attended_of_tended hdata h
  obtain ⟨calls, hhandles⟩ := hp.write hid hobeys hrun
  refine ⟨calls, hhandles.noted, fun k w hk => ⟨?_, fun hmem => ?_, fun c hc => ?_⟩⟩
  · exact (hp.frame hhandles.frame).place w (List.mem_of_getElem? hk)
  · exact hhandles.called k ⟨w, hk, hmem⟩
  · have hfinal : p'.valueAt w.path = c.actual := by
      rw [hhandles.fresh k w hk, hc]
      rfl
    obtain ⟨hmem, rfl⟩ := mem_of_lastOf hc
    exact ⟨hfinal, fun hleads => (hhandles.timely c hmem w hk hleads).trans hfinal.symm⟩

/-! ## Behind an observer that writes -/

/-- A page with one more observer. -/
def attend (ws : List (Watch τ)) (w : Watch τ) (p : Page (τ × List Handing)) :
    Page (τ × List Handing) :=
  { p with graph := (p.graph.settle
      (p.graph.observe w.node (.watcher (w.noting ws.length)))).2 }

theorem Tended.attend {data : Value} {host : τ} (h : Tended data host ws p) {w : Watch τ}
    (hplace : p.graph.location? w.node = some w.path)
    (hwrites : ∀ current previous, (w.program current previous).WritesOnly) :
    Tended data host (ws ++ [w]) (attend ws w p) := by
  refine h.observe hplace hwrites ?_
  rw [Graph.observe, if_pos (contains_of_location? hplace)]
  rfl

/-- What takes back a value that is written. -/
def takingBack (current _ : Value) : Program (Unit × List Handing) :=
  match current with
  | .bool true => .tell (.write [.field "n"] (.bool false)) fun _ => .done .null
  | _ => .done .null

/-- An observer that takes back what is written, and one behind it on the same node. -/
def takers : List (Watch Unit) :=
  [⟨1, [.field "n"], takingBack⟩, ⟨1, [.field "n"], fun _ _ => .done .null⟩]

def takenData : Value := .record [("n", .null)]

def takenPage : Page (Unit × List Handing) :=
  attend (takers.take 1) ⟨1, [.field "n"], fun _ _ => .done .null⟩
    (attend [] ⟨1, [.field "n"], takingBack⟩ (untended takenData ()))

/-- The page after a value has been written, and taken back. -/
def takenPage' : Page (Unit × List Handing) :=
  (write (interpret 4) 4 [.field "n"] (.bool true) takenPage).stateD takenPage

theorem tended_takenPage : Tended takenData () takers takenPage := by
  have hwrites : ∀ current previous, (takingBack current previous).WritesOnly := by
    intro current previous
    unfold takingBack
    split
    · exact .write (fun _ => .done .null) fun _ => rfl
    · exact .done .null
  have hfirst : (untended takenData ()).graph.location? 1 = some [.field "n"] := by decide +kernel
  have hsecond : (attend [] ⟨1, [.field "n"], takingBack⟩
      (untended takenData ())).graph.location? 1 = some [.field "n"] := by decide +kernel
  have hone : Tended takenData () (takers.take 1) _ :=
    Tended.start.attend (w := ⟨1, [.field "n"], takingBack⟩) hfirst hwrites
  exact hone.attend hsecond fun _ _ => .done .null

theorem write_takenPage :
    ∃ r, write (interpret 4) 4 [.field "n"] (.bool true) takenPage = .done r takenPage' :=
  Outcome.exists_eq_done (by decide +kernel) takenPage

theorem obeys_takenPage :
    write (interpretUnder .landing 4) 4 [.field "n"] (.bool true) takenPage ≠ .exhausted :=
  Outcome.ne_exhausted (by decide +kernel)

/-- The observer behind is handed what was taken back, after it has been handed the value that took
its place. -/
theorem stale_behind_writer : Tended takenData () takers takenPage ∧ takenPage.host.2 = [] ∧
    takenPage.graph.resolve [.field "n"] = some 1 ∧
    write (interpretUnder .landing 4) 4 [.field "n"] (.bool true) takenPage ≠ .exhausted ∧
    (∃ r, write (interpret 4) 4 [.field "n"] (.bool true) takenPage = .done r takenPage') ∧
    ¬∀ k w c, takers[k]? = some w → lastOf k takenPage'.host.2 = some c →
      c.handed = takenPage'.valueAt w.path := by
  refine ⟨tended_takenPage, rfl, by decide +kernel, obeys_takenPage, write_takenPage, fun h => ?_⟩
  have hlast : (lastOf 1 takenPage'.host.2).map (fun c => c.handed.render) = some "true" := by
    decide +kernel
  have hvalue : (takenPage'.valueAt [.field "n"]).render = "false" := by decide +kernel
  obtain ⟨c, hc, hhanded⟩ := Option.map_eq_some_iff.mp hlast
  rw [h 1 _ c rfl hc, hvalue] at hhanded
  exact absurd hhanded (by decide)

/-- The observer in front is handed the final value last, and the one behind is called last when the
node has it. -/
theorem handed_of_tended_takers : ∃ calls, takenPage'.host.2 = takenPage.host.2 ++ calls ∧
    (∃ c, lastOf 0 calls = some c ∧ c.handed = takenPage'.valueAt [.field "n"]) ∧
    ∃ c, lastOf 1 calls = some c ∧ c.actual = takenPage'.valueAt [.field "n"] := by
  obtain ⟨r, hrun⟩ := write_takenPage
  have hid : takenPage.graph.resolve [.field "n"] = some 1 := by decide +kernel
  have hcovered : 1 ∈ takenPage.graph.order 1 := by decide +kernel
  obtain ⟨calls, hnoted, hcalls⟩ :=
    handed_of_tended (by decide) tended_takenPage hid obeys_takenPage hrun
  obtain ⟨-, hfront, hlast⟩ := hcalls 0 ⟨1, [.field "n"], takingBack⟩ rfl
  obtain ⟨-, hbehind, hlast'⟩ := hcalls 1 ⟨1, [.field "n"], fun _ _ => .done .null⟩ rfl
  obtain ⟨c, hc⟩ := Option.isSome_iff_exists.mp (hfront hcovered)
  obtain ⟨c', hc'⟩ := Option.isSome_iff_exists.mp (hbehind hcovered)
  have hleads : Leads takers 1 0 := fun o _ ho => absurd ho (Nat.not_lt_zero o.2)
  exact ⟨calls, hnoted, ⟨c, hc, (hlast c hc).2 hleads⟩, c', hc', (hlast' c' hc').1.symm⟩

end Page

end ReactiveView
