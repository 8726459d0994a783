import ReactiveView.Proofs.Expression.Grammar
import ReactiveView.Proofs.Page.Named
import ReactiveView.Proofs.Surface.Shows
/-!
# Coherent bindings

A binding is coherent when its element shows the value that its expression has now. In the middle
of a cascade some bindings are not: those of the nodes that are still to be notified. `Settled D p`
says that all bindings are coherent but those in `D`. A notification takes the bindings of its node
out of `D`. A write puts the bindings into it that its cascade is to notify, and the cascade takes
them out again. So a write that ends leaves `D` as it was, and this is why it may happen inside
another cascade.

Watchers may only set what expressions name. What they set is covered by induction on the depth, for
every `D` at once.

Results:
* `Cleans.trans`: one run after another cleans what either of them cleans.
* `cleans_notify`, `cleans_cascade`: notifications clean the bindings of their nodes.
* `cleans_set`, `cleans_program`: sets leave every binding coherent that was.
-/
namespace ReactiveView

namespace Graph

variable {ω : Type} {g g' : Graph ω}

/-- The observers of a node, in order. -/
def observers (g : Graph ω) (i : Nat) : List ω := (g.property? i).elim [] Property.observers

/-- A new node has no observers. -/
theorem observers_push (key : String) (source : Source) (i : Nat) :
    (g.push key source).observers i = g.observers i := by
  unfold observers property? push
  rw [Forest.content?_push]
  split
  · next hi =>
    rw [hi, Forest.content?, Forest.node?_eq_none_of_le (Nat.le_refl _)]
    rfl
  · rfl

theorem observers_pushChild (p : Nat) (key : String) (source : Source) (i : Nat) :
    (g.pushChild p key source).observers i = g.observers i := by
  have hattach : ∀ (g : Graph ω) (c : Nat), (g.attach p c).observers i = g.observers i := by
    intro g c
    unfold observers property? attach
    rw [Forest.content?_attach]
  rw [pushChild, hattach, observers_push]

theorem Grows.observers {ok : Path → Prop} (h : Grows ok g g') (i : Nat) :
    g'.observers i = g.observers i := by
  induction h with
  | refl => rfl
  | push _ _ _ _ _ ih => rw [observers_pushChild, ih]

theorem observers_ofData (v : Value) (i : Nat) : (ofData v : Graph ω).observers i = [] :=
  ((grows_ofData v).observers i).trans
    (observers_push (g := ⟨Forest.empty, []⟩) rootKey .root i)

theorem observers_setPrevious {i : Nat} {v : Value} (h : g.setPrevious i v = .ok g') (j : Nat) :
    g'.observers j = g.observers j := by
  unfold setPrevious at h
  split at h
  · cases h
    rw [observers, observers, property?_mapProperty]
    split
    · cases g.property? j <;> rfl
    · rfl
  · cases h

/-- A new observer comes behind those of its node. -/
theorem observers_observe {i : Nat} {o : ω} (h : g.observe i o = .ok g') (j : Nat) :
    g'.observers j = g.observers j ++ if i = j then [o] else [] := by
  unfold observe contains at h
  split at h
  · next hi =>
    cases h
    obtain ⟨property, hproperty⟩ := Option.isSome_iff_exists.mp hi
    rw [observers, observers, property?_mapProperty]
    split
    · next hij =>
      subst hij
      simp [hproperty]
    · rw [List.append_nil]
  · cases h

theorem mem_observers_observe {i : Nat} {o : ω} (h : g.observe i o = .ok g') (j : Nat) (o' : ω) :
    o' ∈ g'.observers j ↔ o' ∈ g.observers j ∨ j = i ∧ o' = o := by
  rw [observers_observe h, List.mem_append]
  split
  · next hij => simp [hij]
  · next hij => simp [Ne.symm hij]

end Graph

/-- A node shows a text in the part that a binding writes. -/
def Target.Shows {ℓ : Type} (s : Surface ℓ) (node : Nat) (t : String) : Target → Prop
  | .content => s.ShowsText node t
  | .attributeNamed name => s.ShowsAttribute node name t

namespace Target

variable {ℓ : Type} {s s' : Surface ℓ} {i j : Nat} {t : String} {target : Target}

theorem Shows.keeps (h : target.Shows s j t) (hothers : s.KeepsOthers s' i) (hj : j ≠ i) :
    target.Shows s' j t := by
  cases target with
  | content => exact hothers.text j t hj h
  | attributeNamed name => exact hothers.value j name t hj h

theorem Shows.listen {event : String} {l : ℓ} (hl : s.listen i event l = .ok s')
    (h : target.Shows s j t) : target.Shows s' j t := by
  obtain ⟨hcontent, hchildren⟩ := Surface.listen_keeps hl
  cases target with
  | content =>
    obtain ⟨⟨tag, as, hel⟩, c, hc, ht⟩ := h
    exact ⟨⟨tag, as, by rw [hcontent, hel]⟩, c, by rw [hchildren, hc], by rw [hcontent, ht]⟩
  | attributeNamed name =>
    obtain ⟨tag, as, hel, ht⟩ := h
    exact ⟨tag, as, by rw [hcontent, hel], ht⟩

end Target

/-- Programs that only set what expressions name, and fail when a set fails. -/
inductive Program.SetsOnly {σ : Type} : Program σ → Prop
  | done (v : Value) : SetsOnly (.done v)
  | fail (e : Error) : SetsOnly (.fail e)
  | look {next : View σ → Program σ} (h : ∀ view, SetsOnly (next view)) : SetsOnly (.look next)
  | update {next : Program σ} (change : σ → σ) (h : SetsOnly next) : SetsOnly (.update change next)
  | set {source : String} {x : Value} {next : Except Error Unit → Program σ}
      (hok : SetsOnly (next (.ok ()))) (herror : ∀ e, next (.error e) = .fail e) :
      SetsOnly (.act (.set source x) next)

namespace Page

open ReactiveView.Graph Run

variable {σ : Type} {p p' p'' : Page σ}

/-- The policy that admits sets only, at paths that are plain and resolve to a node. -/
def Policy.resolving : Policy σ
  | p, .set source _ =>
    match Expression.read source with
    | .ok e => Path.isPlain e.path && (p.graph.resolve e.path).isSome
    | .error _ => true
  | _, _ => false

theorem Policy.resolving_enforces : (Policy.resolving : Policy σ).Enforces .below := by
  intro p c hc
  cases c <;> first | cases hc | skip
  exact fun e _ hfree => ⟨List.cons_ne_nil _ _, hfree⟩

/-! ## Bindings of a page -/

/-- A binding between an element and a node of the data. -/
structure Binds (p : Page σ) (n : Nat) (b : Binding) : Prop where
  read : ∃ source, Expression.read source = .ok b.expression
  call : b.expression.isCall = false
  scope : b.scope = .page
  plain : Path.isPlain b.expression.path
  name : ∀ name, b.target = .attributeNamed name → Text.lowered name = name
  element : p.surface.IsElement b.node
  walk : p.graph.walk root b.expression.path.keys = some n

/-- A page whose observers are bindings of different elements to nodes of the data, and watchers
that only set. -/
structure Wired (p : Page σ) : Prop where
  named : Named p
  binding : ∀ n b, .binding b ∈ p.graph.observers n → Binds p n b
  distinct : ∀ n m b c, .binding b ∈ p.graph.observers n → .binding c ∈ p.graph.observers m →
    b.node = c.node → b = c
  watcher : ∀ n w, .watcher w ∈ p.graph.observers n → ∀ current previous,
    (w current previous).SetsOnly

/-- The element of a binding shows the value of its expression. -/
def Coherent (p : Page σ) (b : Binding) : Prop :=
  b.target.Shows p.surface b.node (p.valueAt b.expression.path).render

/-- All bindings are coherent but those in `D`. -/
def Settled (D : Binding → Prop) (p : Page σ) : Prop :=
  ∀ n b, .binding b ∈ p.graph.observers n → ¬D b → Coherent p b

/-- A page that differs in data, recorded values and what elements show only. -/
structure Frame (p p' : Page σ) : Prop where
  shape : SameShape p.graph p'.graph
  observers : ∀ n, p'.graph.observers n = p.graph.observers n
  element : ∀ i, p.surface.IsElement i → p'.surface.IsElement i

theorem Frame.refl (p : Page σ) : Frame p p := ⟨.refl _, fun _ => rfl, fun _ h => h⟩

theorem Frame.trans (h : Frame p p') (h' : Frame p' p'') : Frame p p'' where
  shape := h.shape.trans h'.shape
  observers n := (h'.observers n).trans (h.observers n)
  element i hi := h'.element i (h.element i hi)

theorem Binds.keeps {n : Nat} {b : Binding} (h : Binds p n b)
    (hshape : SameShape p.graph p'.graph)
    (helement : ∀ i, p.surface.IsElement i → p'.surface.IsElement i) : Binds p' n b :=
  { h with
    element := helement _ h.element
    walk := by rw [hshape.walk, h.walk] }

theorem Frame.wired (h : Frame p p') (hp : Wired p) (hnamed : Named p') : Wired p' where
  named := hnamed
  binding n b hb := by
    rw [h.observers] at hb
    exact (hp.binding n b hb).keeps h.shape h.element
  distinct n m b c := by
    rw [h.observers, h.observers]
    exact hp.distinct n m b c
  watcher n w := by
    rw [h.observers]
    exact hp.watcher n w

/-! ## The value of a binding -/

theorem member?_of_field? {v w : Value} {name : String} (h : v.field? name = some w) :
    v.member? (.field name) = some w := by
  cases v with
  | record entries => exact h
  | _ => cases h

/-- The head of an expression that leads to a node of the data is a field of the data. -/
theorem field?_head (hp : Named p) {source : String} {e : Expression} {n : Nat}
    (hread : Expression.read source = .ok e) (hwalk : p.graph.walk root e.path.keys = some n) :
    ∃ v, p.data.field? e.head = some v := by
  have hgrown := hp.keyed.grown
  rw [show e.path.keys = e.head :: Path.keys e.tail from rfl, walk_cons] at hwalk
  obtain ⟨c, hc, -⟩ := Option.bind_eq_some_iff.mp hwalk
  obtain ⟨hparent, hkey⟩ := (childByKey_eq_some_iff hgrown).mp hc
  obtain ⟨base, path, s, hbase, hplace, hkeys⟩ := hgrown.child c root hparent
  rw [location?_root hgrown] at hbase
  cases hbase
  obtain rfl : path = [] := List.map_eq_nil_iff.mp hkeys
  rw [hplace] at hkey
  have hhead : s.key = e.head := Option.some.inj hkey
  rw [← Option.isSome_iff_exists, ← hhead]
  rcases hp.keyed.field c s.key s hplace with hfield | ⟨i, rfl⟩
  · exact hfield
  · exact absurd hhead.symm (Expression.head_ne_decimal hread i)

/-- The value of an expression whose head is a field of the data. No program runs. -/
theorem evaluate_of_field? {e : Expression} (hcall : e.isCall = false) {v : Value}
    (hv : p.data.field? e.head = some v) (run : Program σ → Run (Page σ) Value) :
    e.evaluate (names run .page) p = .done ((v.at? e.tail).getD .null) p := by
  have hlookup : (names run .page).lookup e.head p = .done (some v) p := by
    have hlook : Run.look (fun p : Page σ => p.data.field? e.head) p = .done (some v) p := by
      rw [Run.look, hv]
    exact bind_of_done hlook
  unfold Expression.evaluate
  rw [if_neg (by simp [hcall]), bind_of_done hlookup]
  rfl

/-- The value of a field of the data by its name alone. -/
theorem evaluate_name {name : String} (hread : Expression.read name = .ok ⟨name, name, [], false⟩)
    {v : Value} (hv : p.data.field? name = some v) (run : Program σ → Run (Page σ) Value) :
    evaluate run name .page p = .done v p := by
  unfold evaluate
  rw [hread]
  exact @evaluate_of_field? σ p ⟨name, name, [], false⟩ rfl v hv run

/-- The value of an expression that leads to a node of the data is the one at its path. No program
runs. -/
theorem evaluate_of_walk (hp : Named p) {source : String} {e : Expression} {n : Nat}
    (hread : Expression.read source = .ok e) (hcall : e.isCall = false)
    (hwalk : p.graph.walk root e.path.keys = some n)
    (run : Program σ → Run (Page σ) Value) :
    e.evaluate (names run .page) p = .done (p.valueAt e.path) p := by
  obtain ⟨v, hv⟩ := field?_head hp hread hwalk
  have hvalue : p.valueAt e.path = (v.at? e.tail).getD .null := by
    rw [valueAt, Expression.path, Value.at?, member?_of_field? hv, Option.bind_some]
  rw [evaluate_of_field? hcall hv, hvalue]

/-! ## Sets -/

theorem Written.named {path : Path} {x : Value} {id : Nat} (h : Written p path x id p') (hp : Named p)
    (hpath : path ≠ []) (hfree : p.isReadOnly path = false) : Named p' := by
  obtain ⟨old, data, graph, hset, hgraph, rfl⟩ := h
  exact (hp.change (.write ⟨hpath, hfree⟩ hset)).change (.previous hgraph)

/-- A set that is done is a write to the path of its expression. If the path leads to a node, this is
a node of the data, and its cascade follows. Otherwise the set is silent. -/
theorem set_eq_done (hp : Named p) {run : Program σ → Run (Page σ) Value} {depth : Nat}
    {source : String} {x : Value} (h : set run depth source x p = .done () p') :
    ∃ e, Expression.read source = .ok e ∧ p.isReadOnly e.path = false ∧
      ((∃ id q p₁, p.graph.walk root e.path.keys = some id ∧ p.graph.location? id = some q ∧
          Written p e.path x id p₁ ∧ (cascade run).notifyAll depth id p₁ = .done () p') ∨
        (p.graph.resolve e.path = none ∧
          ∃ old data, p.data.set e.path x = .ok (old, data) ∧ p' = { p with data })) := by
  obtain ⟨e, p₀, hfirst, hrest⟩ := bind_eq_done h
  obtain ⟨hread, rfl⟩ := ofExcept_eq_done hfirst
  obtain ⟨path, p₁, hsecond, hassign⟩ := bind_eq_done hrest
  obtain ⟨htarget, rfl⟩ := ofExcept_eq_done hsecond
  obtain rfl := Expression.eq_path_of_target htarget
  obtain ⟨hfree, r, hwrite⟩ := assign_eq_done hassign
  refine ⟨e, hread, hfree, ?_⟩
  rcases write_cases hwrite with ⟨id, p₂, hid, hwritten, hcascade⟩ | hsilent
  · have hdata := not_mem_computed_of_resolve hp (Expression.head_ne_decimal hread) hid hfree
    obtain ⟨hwalk, q, hq, -⟩ := walk_resolve hp.keyed.grown hid hdata
    exact .inl ⟨id, q, p₂, hwalk, hq, hwritten, hcascade⟩
  · exact .inr hsilent

theorem Named.withSurface (hp : Named p) {surface : Surface (Listener σ)} (hs : surface.Sound) :
    Named { p with surface } := ⟨hs, hp.keyed⟩

/-- Rendering a binding makes its element show the value of its expression, and changes nothing
else that elements show. -/
theorem render_eq (hp : Named p) {n : Nat} {b : Binding} (hb : Binds p n b)
    (run : Program σ → Run (Page σ) Value) :
    ∃ surface, render run b p = .done () { p with surface } ∧ surface.Sound ∧
      b.target.Shows surface b.node (p.valueAt b.expression.path).render ∧
      p.surface.KeepsOthers surface b.node := by
  obtain ⟨source, hread⟩ := hb.read
  have hvalue := evaluate_of_walk hp hread hb.call hb.walk run
  rw [← hb.scope] at hvalue
  unfold render
  rw [bind_of_done hvalue]
  generalize (p.valueAt b.expression.path).render = text
  cases htarget : b.target with
  | content =>
    obtain ⟨s, hset, hshows, hothers⟩ := Surface.setText_shows hp.surface hb.element text
    refine ⟨s, ?_, ?_, hshows, hothers⟩
    · simp only [writeTarget, editSurface, onSurface, Run.edit, Surface.apply, hset]
    · have hsound := Surface.sound_setText hp.surface b.node text
      rwa [hset] at hsound
  | attributeNamed name =>
    obtain ⟨s, hset, hshows, hothers⟩ := Surface.setAttribute_shows hb.element name text
    rw [hb.name name htarget] at hshows
    refine ⟨s, ?_, Surface.sound_setAttribute hp.surface hset, hshows, hothers⟩
    simp only [writeTarget, editSurface, onSurface, Run.edit, Surface.apply, hset, Surface.settle]

/-- A node of the data that is notified has its observers called in a row, with the value that it has
before the first of them is called. -/
theorem notify_eq_done {run : Program σ → Run (Page σ) Value} {n : Nat} {q : Path}
    (hn : p.graph.location? n = some q) (h : (cascade run).notify n p = .done () p') :
    ∃ previous, (p.graph.observers n).forM
      (fun o => callObserver run o (p.valueAt q) previous) p = .done () p' := by
  obtain ⟨_, _, hlook, hread⟩ := bind_eq_done h
  cases hlook
  obtain ⟨property, p₀, hproperty, hcalls⟩ := bind_eq_done hread
  obtain ⟨hproperty, rfl⟩ := ofExcept_eq_done hproperty
  have hsome : p₀.graph.property? n = some property := property_eq_ok.mp hproperty
  have hobservers : p₀.graph.observers n = property.observers := by
    rw [Graph.observers, hsome]
    rfl
  rw [hobservers]
  split at hcalls
  · next hempty =>
    rw [List.isEmpty_iff.mp hempty]
    exact ⟨.null, hcalls⟩
  · obtain ⟨current, p₁, hvalue, hcalls⟩ := bind_eq_done hcalls
    have hplace : p₀.graph.place? n = some (property.key, property.source) := by
      rw [place?, hsome]
      rfl
    have hvalue' : valueOf run property.source p₀ = .done current p₁ := hvalue
    rw [valueOf_location run hplace hn] at hvalue'
    cases hvalue'
    exact ⟨_, hcalls⟩

/-- A cascade of a node of the data that is done notifies the nodes that it covers in a row, all of
them nodes of the data. What their notifications keep is `I`, and `I` keeps the links. -/
theorem cascade_eq_done {rules : Rules σ} {run : Program σ → Run (Page σ) Value}
    (htracks : ∀ program p, Tracks (Change rules) (run program) (run program) p)
    (hg : p.graph.Grown) {id depth : Nat} {q : Path} (hid : p.graph.location? id = some q)
    {I : Page σ → Prop} (hI : ∀ s, I s → SameShape p.graph s.graph)
    (hstep : ∀ n r s s', p.graph.location? n = some r → I s →
      (cascade run).notify n s = .done () s' → I s')
    (hp : I p) (h : (cascade run).notifyAll depth id p = .done () p') :
    (p.graph.order id).forM (cascade run).notify p = .done () p' := by
  -- a cascade that ends is the same at a depth that is known to suffice
  have hdeep := ((tracks_notifyAll htracks (Nat.le_max_left depth (p.graph.forest.size + 1))
    id).done h).1
  have hplace : (p.graph.place? id).isSome := by
    obtain ⟨x, hx, -⟩ := Option.bind_eq_some_iff.mp hid
    rw [hx]
    rfl
  rwa [Cascade.notifyAll_eq_forM (I := I) hg hI hplace (by omega) ?_ hp] at hdeep
  intro n hn s s' hs hdone
  obtain ⟨r, hr⟩ := location?_of_mem_order hg hid hn
  exact hstep n r s s' hr hs hdone

/-! ## Runs that clean bindings -/

/-- What a run from `p` to `p'` does that leaves the wiring alone: bindings that were coherent are
so again in the end, and so are those that are `clean`. -/
structure Cleans (clean : Binding → Prop) (p p' : Page σ) : Prop where
  wired : Wired p'
  frame : Frame p p'
  settled : ∀ D, Settled (fun b => D b ∨ clean b) p → Settled D p'

variable {clean clean' : Binding → Prop}

theorem Settled.imp {D D' : Binding → Prop} (h : Settled D p) (himp : ∀ b, D b → D' b) :
    Settled D' p := fun n b hb hD => h n b hb fun hd => hD (himp b hd)

theorem Cleans.refl (hp : Wired p) : Cleans (fun _ => False) p p :=
  ⟨hp, .refl p, fun _ h => h.imp fun _ hb => hb.resolve_right id⟩

theorem Cleans.imp (h : Cleans clean p p') (himp : ∀ b, clean' b → clean b) :
    Cleans clean' p p' :=
  ⟨h.wired, h.frame, fun D hp => h.settled D (hp.imp fun b => Or.imp_right (himp b))⟩

/-- One run after another cleans what either of them cleans. -/
theorem Cleans.trans (h : Cleans clean p p') (h' : Cleans clean' p' p'') :
    Cleans (fun b => clean b ∨ clean' b) p p'' := by
  refine ⟨h'.wired, h.frame.trans h'.frame, fun D hp => h'.settled D (h.settled _ ?_)⟩
  refine hp.imp fun b hb => ?_
  rcases hb with hD | hclean | hclean
  · exact .inl (.inl hD)
  · exact .inr hclean
  · exact .inl (.inr hclean)

theorem cleans_render (hp : Wired p) {n : Nat} {b : Binding} (hb : .binding b ∈ p.graph.observers n)
    {run : Program σ → Run (Page σ) Value} (h : render run b p = .done () p') :
    Cleans (· = b) p p' := by
  obtain ⟨surface, hrender, hsound, hshows, hothers⟩ := render_eq hp.named (hp.binding n b hb) run
  rw [hrender] at h
  cases h
  have hframe : Frame p { p with surface } := ⟨.refl _, fun _ => rfl, hothers.element⟩
  refine ⟨hframe.wired hp (hp.named.withSurface hsound), hframe, fun D hsettled m c hc hD => ?_⟩
  by_cases hcb : c = b
  · subst hcb
    exact hshows
  · have hne : c.node ≠ b.node := fun heq => hcb (hp.distinct m n c b hc hb heq)
    exact Target.Shows.keeps (hsettled m c hc (not_or.mpr ⟨hD, hcb⟩)) hothers hne

/-- A write leaves all bindings coherent but those of the nodes that its cascade covers. -/
theorem settled_written (hp : Wired p) {path : Path} {x : Value} {id : Nat}
    (hpath : Path.isPlain path) (hwalk : p.graph.walk root path.keys = some id)
    (hwritten : Written p path x id p') {D : Binding → Prop} (h : Settled D p) :
    Settled (fun b => D b ∨ ∃ n ∈ p'.graph.order id, .binding b ∈ p'.graph.observers n) p' := by
  have hshape := hwritten.sameShape
  obtain ⟨old, data, graph, hset, hgraph, rfl⟩ := hwritten
  intro n b hb hD
  obtain ⟨hD, horder⟩ := not_or.mp hD
  have hold : .binding b ∈ p.graph.observers n := observers_setPrevious hgraph n ▸ hb
  have hbinds := hp.binding n b hold
  have hsame : (data.at? b.expression.path).getD .null = p.valueAt b.expression.path := by
    refine Classical.byContradiction fun hne => horder ⟨n, ?_, hb⟩
    refine mem_order_of_prefix (hshape.grown hp.named.keyed.grown) ((hshape.walk _ _).trans hwalk)
      ((hshape.walk _ _).trans hbinds.walk) ?_
    exact prefix_of_changed hpath hbinds.plain hset hne
  show b.target.Shows p.surface b.node (Value.render ((data.at? b.expression.path).getD .null))
  rw [hsame]
  exact h n b hold hD

section

variable {run : Program σ → Run (Page σ) Value}
  (hrun : ∀ program : Program σ, program.SetsOnly → ∀ p v p', Wired p →
    run program p = .done v p' → Cleans (fun _ => False) p p')

include hrun

/-- Observers of a node called in a row clean the bindings among them. -/
theorem cleans_observers {n : Nat} {os : List (Observer σ)} {current previous : Value}
    (hos : ∀ o ∈ os, o ∈ p.graph.observers n) (hp : Wired p)
    (h : os.forM (fun o => callObserver run o current previous) p = .done () p') :
    Cleans (fun b => .binding b ∈ os) p p' := by
  induction os generalizing p with
  | nil =>
    cases h
    exact (Cleans.refl hp).imp fun b hb => by cases hb
  | cons o os ih =>
    obtain ⟨_, p₁, hcall, hrest⟩ := bind_eq_done h
    have ho := hos o List.mem_cons_self
    have htail : ∀ o' ∈ os, o' ∈ p.graph.observers n := fun o' ho' =>
      hos o' (List.mem_cons_of_mem _ ho')
    cases o with
    | binding b =>
      have hclean := cleans_render hp ho hcall
      have hrest := ih (fun o' ho' => hclean.frame.observers n ▸ htail o' ho') hclean.wired hrest
      refine (hclean.trans hrest).imp fun c hc => ?_
      rcases List.mem_cons.mp hc with heq | hc
      · cases heq
        exact .inl rfl
      · exact .inr hc
    | watcher w =>
      obtain ⟨v, p₂, hprogram, hdone⟩ := bind_eq_done hcall
      cases hdone
      have hclean := hrun _ (hp.watcher n w ho current previous) p v _ hp hprogram
      have hrest := ih (fun o' ho' => hclean.frame.observers n ▸ htail o' ho') hclean.wired hrest
      refine (hclean.trans hrest).imp fun c hc => ?_
      rcases List.mem_cons.mp hc with heq | hc
      · cases heq
      · exact .inr hc

/-- The notification of a node of the data cleans the bindings of the node. -/
theorem cleans_notify (hp : Wired p) {n : Nat} {q : Path} (hn : p.graph.location? n = some q)
    (h : (cascade run).notify n p = .done () p') :
    Cleans (fun b => .binding b ∈ p.graph.observers n) p p' := by
  obtain ⟨previous, hcalls⟩ := notify_eq_done hn h
  exact cleans_observers hrun (fun _ ho => ho) hp hcalls

/-- Nodes of the data notified in a row. -/
theorem cleans_nodes {ns : List Nat} (hns : ∀ n ∈ ns, ∃ q, p.graph.location? n = some q)
    (hp : Wired p) (h : ns.forM (cascade run).notify p = .done () p') :
    Cleans (fun b => ∃ n ∈ ns, .binding b ∈ p.graph.observers n) p p' := by
  induction ns generalizing p with
  | nil =>
    cases h
    refine (Cleans.refl hp).imp ?_
    rintro b ⟨n, hn, -⟩
    cases hn
  | cons n ns ih =>
    obtain ⟨_, p₁, hnotify, hrest⟩ := bind_eq_done h
    obtain ⟨q, hq⟩ := hns n List.mem_cons_self
    have hclean := cleans_notify hrun hp hq hnotify
    have hrest := ih (fun m hm => by
      obtain ⟨r, hr⟩ := hns m (List.mem_cons_of_mem _ hm)
      exact ⟨r, (hclean.frame.shape.location m).trans hr⟩) hclean.wired hrest
    refine (hclean.trans hrest).imp ?_
    rintro b ⟨m, hm, hb⟩
    rcases List.mem_cons.mp hm with rfl | hm
    · exact .inl hb
    · exact .inr ⟨m, hm, by rwa [hclean.frame.observers]⟩

variable (htracks : ∀ program p, Tracks (Change .below) (run program) (run program) p)

include htracks

/-- The cascade of a node of the data cleans the bindings of all nodes that it covers. -/
theorem cleans_cascade (hp : Wired p) {id depth : Nat} {q : Path}
    (hid : p.graph.location? id = some q)
    (h : (cascade run).notifyAll depth id p = .done () p') :
    Cleans (fun b => ∃ n ∈ p.graph.order id, .binding b ∈ p.graph.observers n) p p' := by
  have hgrown := hp.named.keyed.grown
  refine cleans_nodes hrun (fun n hn => location?_of_mem_order hgrown hid hn) hp ?_
  refine cascade_eq_done htracks hgrown hid (I := fun s => Wired s ∧ SameShape p.graph s.graph)
    (fun _ hs => hs.2) ?_ ⟨hp, .refl _⟩ h
  intro n r s s' hr hs hdone
  have hclean := cleans_notify hrun hs.1 ((hs.2.location n).trans hr) hdone
  exact ⟨hclean.wired, hs.2.trans hclean.frame.shape⟩

/-- A set leaves every binding coherent that was. -/
theorem cleans_set (hp : Wired p) {source : String} {x : Value} {depth : Nat}
    (hadmits : Policy.resolving p (.set source x))
    (h : set run depth source x p = .done () p') : Cleans (fun _ => False) p p' := by
  obtain ⟨e, hread, hfree, hset⟩ := set_eq_done hp.named h
  have hadmits : Path.isPlain e.path ∧ (p.graph.resolve e.path).isSome := by
    simpa only [Policy.resolving, hread, Bool.and_eq_true] using hadmits
  obtain ⟨hplain, hresolves⟩ := hadmits
  rcases hset with ⟨id, q, p₂, hwalk, hq, hwritten, hcascade⟩ | ⟨hnone, -⟩
  swap
  · rw [hnone] at hresolves
    cases hresolves
  have hshape := hwritten.sameShape
  have hframe : Frame p p₂ := by
    obtain ⟨old, data, graph, -, hgraph, rfl⟩ := hwritten
    exact ⟨hshape, observers_setPrevious hgraph, fun _ hi => hi⟩
  have hnamed := hwritten.named hp.named (List.cons_ne_nil _ _) hfree
  have hclean := cleans_cascade hrun htracks (hframe.wired hp hnamed)
    ((hshape.location id).trans hq) hcascade
  refine ⟨hclean.wired, hframe.trans hclean.frame, fun D hD => hclean.settled D ?_⟩
  exact settled_written hp hplain hwalk hwritten (hD.imp fun b hb => hb.resolve_right nofun)

end

/-- Programs that only set leave every binding coherent that was. -/
theorem cleans_program {depth : Nat} {program : Program σ} (hprogram : program.SetsOnly)
    {v : Value} (hp : Wired p) (h : interpretUnder .resolving depth program p = .done v p') :
    Cleans (fun _ => False) p p' := by
  -- the programs that a cascade sets off run at a smaller depth
  induction depth generalizing program v p p' with
  | zero => cases h
  | succ depth ih =>
    rw [interpretUnder] at h
    induction hprogram generalizing p with
    | done v =>
      cases h
      exact .refl hp
    | fail e => cases h
    | look _ ihnext => exact ihnext p.view hp h
    | update change _ ihnext =>
      have hhost : Cleans (fun _ => False) p { p with host := change p.host } := by
        have hframe : Frame p { p with host := change p.host } :=
          ⟨.refl _, fun _ => rfl, fun _ hi => hi⟩
        have hnamed : Named { p with host := change p.host } :=
          ⟨hp.named.surface, hp.named.keyed⟩
        exact ⟨hframe.wired hp hnamed, hframe, fun D hD => hD.imp fun b hb => hb.resolve_right id⟩
      exact (hhost.trans (ihnext hhost.wired h)).imp fun _ => .inl
    | @set source x next _ herror ihnext =>
      rw [execUnder] at h
      obtain ⟨admits, p₁, hlook, h⟩ := bind_eq_done h
      cases hlook
      split at h
      · next hadmits =>
        obtain ⟨r, p₂, hattempt, hrest⟩ := bind_eq_done h
        rcases attempt_eq_done hattempt with ⟨a, rfl, hset⟩ | ⟨e, rfl, -⟩
        · have hclean := cleans_set (fun program hsets p v p' hp h => ih hsets hp h)
            (tracks_interpretUnder_self Policy.resolving_enforces depth) hp hadmits hset
          exact (hclean.trans (ihnext hclean.wired hrest)).imp fun _ => .inl
        · rw [herror] at hrest
          cases hrest
      · cases h

end Page

end ReactiveView
