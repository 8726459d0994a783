import ReactiveView.Proofs.Cascade.Order
import ReactiveView.Proofs.Graph.Growing
import ReactiveView.Proofs.Page.Policy
import ReactiveView.Proofs.Value.Lens
/-!
# What a cascade covers

A write changes the value of a node only if the node lies on the way to the place written, or below
it. Since nodes lie in the graph as their data lies in the data, the cascade of the node that the
path resolves to notifies all of these.

This needs that a place has one spelling in the graph: all data, values and paths are plain. And it
needs that the path resolves to a node of the data. A path can resolve to a computed node and yet be
writable, when it starts with an index: then no node of the data is notified.

Results:
* `Plain.of_reached`: pages stay plain as long as all writes are.
* `mem_order_of_changed`: the cascade of a node of the data covers what the write changes.
* `assign_covers_iff`: it covers what the write changes unless the node is a computed one and the
  data changes.
-/
namespace ReactiveView.Page

open ReactiveView.Graph Run

variable {σ : Type} {rules : Rules σ} {p p' : Page σ}

/-! ## What a change does to data and graph -/

/-- Unless the graph is edited by hand, a change keeps its shape, and perhaps writes to the data, or
it keeps the data and adds nodes for the members that a value of the data has now. -/
theorem Change.data_graph (hrules : ∀ e, ¬rules.graph e) (hg : p.graph.Grown)
    (h : Change rules p p') :
    (SameShape p.graph p'.graph ∧ (p'.data = p.data ∨
      ∃ path x old, rules.write p path x ∧ p.data.set path x = .ok (old, p'.data))) ∨
    (rules.grow ∧ p'.data = p.data ∧ ∃ id path v, p.graph.location? id = some path ∧
      p.data.at? path = some v ∧
      Grows (fun q => ∃ rest, q = path ++ rest ∧ Outline.Leads v.outline rest)
        p.graph p'.graph) := by
  cases h with
  | surface => exact .inl ⟨.refl _, .inl rfl⟩
  | scopes => exact .inl ⟨.refl _, .inl rfl⟩
  | host => exact .inl ⟨.refl _, .inl rfl⟩
  | write hw hset => exact .inl ⟨.refl _, .inr ⟨_, _, _, hw, hset⟩⟩
  | previous h => exact .inl ⟨sameShape_setPrevious h, .inl rfl⟩
  | observe h => exact .inl ⟨sameShape_observe h, .inl rfl⟩
  | growRoot hgrow h =>
    have hroot := location?_root hg
    exact .inr ⟨hgrow, rfl, root, [], p.data, hroot, rfl, grows_grow hg hroot rfl h⟩
  | @growData id property path v _ hgrow hp hs hv h =>
    have hid : p.graph.location? id = some path := by
      rw [location?, place?, hp, Option.map_some, Option.bind_some, hs]
      rfl
    exact .inr ⟨hgrow, rfl, id, path, v, hid, hv, grows_grow hg hid rfl h⟩
  | graph he => exact absurd he (hrules _)

theorem Change.computed_methods (h : Change rules p p') :
    p'.computed = p.computed ∧ p'.methods = p.methods := by
  cases h <;> exact ⟨rfl, rfl⟩

/-! ## Plain pages -/

/-- All writes are plain, and the graph is not edited by hand. -/
def Rules.plain : Rules σ where
  write _ path x := path.isPlain ∧ x.isPlain
  graph _ := False

/-- Whether a listener writes back to a plain path, if it writes to the data at all. -/
def Listener.isPlain : Listener σ → Bool
  | .writeBack _ e .page => Path.isPlain e.path
  | .writeBack _ _ (.plain _) => true
  | .script _ => true

/-- The policy that admits plain writes only, and no edits of the graph by hand. -/
def Policy.plain : Policy σ
  | _, .graph _ => false
  | _, .write path x => Path.isPlain path && x.isPlain
  | _, .assign path x => Path.isPlain path && x.isPlain
  | _, .set source x =>
    match Expression.read source with
    | .ok e => Path.isPlain e.path && x.isPlain
    | .error _ => true
  | p, .dispatch node event _ =>
    match p.surface.listeners node event with
    | .ok ls => ls.all Listener.isPlain
    | .error _ => true
  | _, _ => true

theorem Policy.plain_enforces : (Policy.plain : Policy σ).Enforces .plain := by
  intro p c hc
  cases c <;> try trivial
  case write => exact (Bool.and_eq_true _ _).mp hc
  case assign => exact fun _ => (Bool.and_eq_true _ _).mp hc
  case set source x =>
    intro e he _
    simp only [Policy.plain, he] at hc
    exact (Bool.and_eq_true _ _).mp hc
  case dispatch node event value =>
    intro ls hls l hl
    simp only [Policy.plain, hls] at hc
    have hplain := List.all_eq_true.mp hc l hl
    cases l with
    | writeBack target e scope =>
      cases scope with
      | page => exact fun _ _ _ => ⟨hplain, rfl⟩
      | plain name => trivial
    | script f => trivial

/-- A page whose nodes lie as their data lies, where every place has one spelling. -/
structure Plain (p : Page σ) : Prop where
  grown : p.graph.Grown
  data : p.data.isPlain
  location : ∀ i path, p.graph.location? i = some path → Path.isPlain path

theorem Plain.change (hp : Plain p) (h : Change .plain p p') : Plain p' := by
  rcases h.data_graph (fun _ he => he) hp.grown with ⟨hshape, hdata⟩ | ⟨-, hdata, hgrows⟩
  · refine ⟨hshape.grown hp.grown, ?_, fun i path hi => hp.location i path ?_⟩
    · rcases hdata with heq | ⟨path, x, old, ⟨hpath, hx⟩, hset⟩
      · rw [heq]
        exact hp.data
      · exact Value.isPlain_set hp.data hpath hx hset
    · rwa [hshape.location] at hi
  · obtain ⟨id, path, v, hid, hv, hgrows⟩ := hgrows
    refine ⟨hgrows.grown hp.grown, by rw [hdata]; exact hp.data, fun i q hi => ?_⟩
    rcases hgrows.location_or hi with hold | ⟨rest, rfl, hleads⟩
    · exact hp.location i q hold
    · have hrest := Value.isPlain_of_leads (Value.isPlain_at? hp.data hv) hleads
      exact Path.isPlain_append.mpr ⟨hp.location id path hid, hrest⟩

theorem location?_insertComputed {ω : Type} {g : Graph ω} {name : String} {i : Nat} {path : Path}
    (h : (g.insertComputed name).2.location? i = some path) : g.location? i = some path := by
  obtain ⟨x, hx, hpath⟩ := Option.bind_eq_some_iff.mp h
  rw [place?_insertComputed] at hx
  split at hx
  · cases hx
    cases hpath
  · exact Option.bind_eq_some_iff.mpr ⟨x, hx, hpath⟩

theorem Plain.assemble {options : Options σ} (hdata : options.data.isPlain)
    (registry : Registry σ) (scopes : Entries Value) (surface : Surface (Listener σ)) (host : σ) :
    Plain (assemble options registry scopes surface host) := by
  have hgraph : ((Page.assemble options registry scopes surface host).graph).Grown ∧
      ∀ i path, (Page.assemble options registry scopes surface host).graph.location? i = some path →
        Path.isPlain path := by
    refine assemble_graph
      (J := fun g => g.Grown ∧ ∀ i path, g.location? i = some path → Path.isPlain path)
      ⟨grown_ofData _, fun i path hi => ?_⟩ (fun g name _ h => ?_) (fun g g' id w _ ho h => ?_)
      registry scopes surface host
    · rcases (grows_ofData options.data).location_or hi with hbare | hleads
      · obtain ⟨x, hx, hpath⟩ := Option.bind_eq_some_iff.mp hbare
        obtain rfl := lt_bare hx
        cases hx
        cases hpath
        rfl
      · exact Value.isPlain_of_leads hdata hleads
    · exact ⟨grown_insertComputed h.1 name, fun i path hi => h.2 i path (location?_insertComputed hi)⟩
    · have hshape := sameShape_observe ho
      exact ⟨hshape.grown h.1, fun i path hi => h.2 i path ((hshape.location i).symm.trans hi)⟩
  exact ⟨hgraph.1, hdata, hgraph.2⟩

/-- Pages stay plain as long as all writes are. -/
theorem Plain.of_reached {options : Options σ} (hdata : options.data.isPlain)
    (h : Reached .plain options p) : Plain p :=
  h.keeps Policy.plain_enforces
    (fun registry scopes surface host _ => .assemble hdata registry scopes surface host)
    (fun _ _ hchange hp => hp.change hchange) fun _ hp => ⟨hp.grown, hp.data, hp.location⟩

/-! ## What a write covers -/

/-- A place whose value a write changes is on the way to the place written, or below it. -/
theorem prefix_of_changed {data data' x old : Value} {path q : Path} (hpath : path.isPlain)
    (hq : q.isPlain) (hset : data.set path x = .ok (old, data'))
    (hne : (data'.at? q).getD .null ≠ (data.at? q).getD .null) :
    q.keys <+: path.keys ∨ path.keys <+: q.keys := by
  have hapart : ¬Path.Apart path q := by
    intro hapart
    exact hne (by rw [Value.at?_set_of_apart hpath hq hapart hset])
  exact (Path.prefix_of_not_apart hapart).symm

/-- Nodes whose places lie on one way are above each other. -/
theorem mem_order_of_prefix {ω : Type} {g : Graph ω} (hg : g.Grown) {id n : Nat}
    {path q : List String} (hid : g.walk root path = some id) (hn : g.walk root q = some n)
    (h : q <+: path ∨ path <+: q) : n ∈ g.order id := by
  have hcases : n = id ∨ g.forest.Above n id ∨ g.forest.Above id n := by
    rcases h with ⟨rest, rfl⟩ | ⟨rest, rfl⟩
    · rw [walk_append, hn] at hid
      exact (above_of_walk hg.tidy hid).imp_right .inl
    · rw [walk_append, hid] at hn
      exact (above_of_walk hg.tidy hn).imp Eq.symm .inr
  rcases hcases with rfl | habove | hbelow
  · exact List.mem_append_right _ List.mem_cons_self
  · have hmem := (Forest.mem_ancestors_iff hg.sound.forest).mpr habove
    exact List.mem_append_right _ (List.mem_cons_of_mem _ hmem)
  · exact List.mem_append_left _ ((Forest.mem_descendants_iff hg.sound.forest).mpr hbelow)

/-- The cascade of a node of the data covers what the write changes: every node whose value it
changes is the node, below it or above it. -/
theorem mem_order_of_changed (hp : Plain p) {path : Path} {x old data' : Value}
    (hpath : path.isPlain) (hset : p.data.set path x = .ok (old, data')) {id : Nat}
    (hid : p.graph.resolve path = some id) (hdata : id ∉ p.graph.computed) {n : Nat} {q : Path}
    (hn : p.graph.location? n = some q)
    (hne : (data'.at? q).getD .null ≠ (p.data.at? q).getD .null) : n ∈ p.graph.order id :=
  mem_order_of_prefix hp.grown (walk_resolve hp.grown hid hdata).1 (walk_location? hp.grown hn)
    (prefix_of_changed hpath (hp.location n q hn) hset hne)

/-- A computed node has nothing above or below it. -/
theorem order_of_mem_computed {ω : Type} {g : Graph ω} (hg : g.Grown) {id : Nat}
    (h : id ∈ g.computed) : g.order id = [id] := by
  obtain ⟨hparent, hchildren, -⟩ := alone_of_mem_computed hg h
  unfold order Forest.descendants Forest.ancestors
  cases g.forest.size with
  | zero => rfl
  | succ n => rw [Forest.descendantsWithin, Forest.ancestorsWithin, hchildren, hparent]; rfl

/-! ## Writes and their cascades -/

/-- The current value at a place of the data; what is absent is null. -/
def valueAt (p : Page σ) (q : Path) : Value := (p.data.at? q).getD .null

/-- The value of a node of the data is the one at its place. -/
theorem valueOf_location (run : Program σ → Run (Page σ) Value) {i : Nat} {k : String}
    {source : Source} {q : Path} (hplace : p.graph.place? i = some (k, source))
    (hq : p.graph.location? i = some q) : valueOf run source p = .done (p.valueAt q) p := by
  rw [location?, hplace] at hq
  cases source with
  | root =>
    cases hq
    rfl
  | data path =>
    cases hq
    rfl
  | computed name => cases hq

/-- A page right after a write, before its cascade: the data is written, and the value replaced is
recorded at the node that the path resolves to. -/
def Written (p : Page σ) (path : Path) (x : Value) (id : Nat) (p₁ : Page σ) : Prop :=
  ∃ old data graph, p.data.set path x = .ok (old, data) ∧
    p.graph.setPrevious id old = .ok graph ∧ p₁ = { p with data, graph }

theorem Written.sameShape {path : Path} {x : Value} {id : Nat} {p₁ : Page σ}
    (h : Written p path x id p₁) : SameShape p.graph p₁.graph := by
  obtain ⟨old, data, graph, -, hgraph, rfl⟩ := h
  exact sameShape_setPrevious hgraph

theorem settle_eq_ok {ω : Type} {g g' : Graph ω} {r : Except Error (Graph ω)} {a : Unit}
    (h : g.settle r = (.ok a, g')) : r = .ok g' := by
  cases r with
  | ok g₁ =>
    cases h
    rfl
  | error e => cases h

/-- A write that is done goes to the data. If the path resolves to a node, the cascade of the node
follows. -/
theorem write_cases {run : Program σ → Run (Page σ) Value} {depth : Nat} {path : Path} {x : Value}
    {r : Option Nat} (h : write run depth path x p = .done r p') :
    (∃ id p₁, p.graph.resolve path = some id ∧ Written p path x id p₁ ∧
        (cascade run).notifyAll depth id p₁ = .done () p') ∨
      (p.graph.resolve path = none ∧
        ∃ old data, p.data.set path x = .ok (old, data) ∧ p' = { p with data }) := by
  obtain ⟨old, p₀, hedit, h⟩ := bind_eq_done h
  obtain ⟨data, hset, rfl⟩ := edit_eq_done hedit
  have hset : p.data.set path x = .ok (old, data) := by
    split at hset <;> cases hset
    assumption
  obtain ⟨found, p₁, hlook, h⟩ := bind_eq_done h
  cases hlook
  dsimp only at h
  cases hid : p.graph.resolve path with
  | none =>
    rw [hid] at h
    cases h
    exact .inr ⟨rfl, old, data, hset, rfl⟩
  | some id =>
    rw [hid] at h
    obtain ⟨_, p₁, hrecord, h⟩ := bind_eq_done h
    obtain ⟨graph, hgraph, rfl⟩ := edit_eq_done hrecord
    obtain ⟨_, p₂, hrun, h⟩ := bind_eq_done h
    cases h
    exact .inl ⟨id, _, rfl, ⟨old, data, graph, hset, settle_eq_ok hgraph, rfl⟩, hrun⟩

/-- A write that is done to a path that resolves is a write to the data and the cascade of the
node. -/
theorem write_eq_done {run : Program σ → Run (Page σ) Value} {depth : Nat} {path : Path} {x : Value}
    {r : Option Nat} {id : Nat} (hid : p.graph.resolve path = some id)
    (h : write run depth path x p = .done r p') :
    ∃ p₁, Written p path x id p₁ ∧ (cascade run).notifyAll depth id p₁ = .done () p' := by
  rcases write_cases h with ⟨id', p₁, hid', hwritten, hcascade⟩ | ⟨hnone, -⟩
  · rw [hid] at hid'
    cases hid'
    exact ⟨p₁, hwritten, hcascade⟩
  · rw [hid] at hnone
    cases hnone

theorem assign_eq_done {run : Program σ → Run (Page σ) Value} {depth : Nat} {path : Path}
    {x : Value} (h : assign run depth path x p = .done () p') :
    p.isReadOnly path = false ∧ ∃ r, write run depth path x p = .done r p' := by
  obtain ⟨readOnly, p₁, hlook, h⟩ := bind_eq_done h
  cases hlook
  split at h
  · cases h
  · next hfree =>
    obtain ⟨r, p₁, hwrite, h⟩ := bind_eq_done h
    cases h
    exact ⟨by simpa using hfree, r, hwrite⟩

/-- A write that succeeds, to a path that resolves to a node, is a write to the data followed by the
cascade of the node. The cascade covers every node of the data whose value the write changes exactly
if the node is not a computed one or nothing changes; and with enough depth, if the notifications
leave the links alone, it notifies what it covers in order. -/
theorem assign_covers_iff {options : Options σ} (h : Reached .plain options p)
    (hdata : options.data.isPlain) {path : Path} (hpath : path.isPlain) {id : Nat}
    (hid : p.graph.resolve path = some id) {run : Program σ → Run (Page σ) Value} {depth : Nat}
    {x : Value} (hrun : assign run depth path x p = .done () p') :
    ∃ p₁, Written p path x id p₁ ∧ (cascade run).notifyAll depth id p₁ = .done () p' ∧
      ((∀ n q, p.graph.location? n = some q → p₁.valueAt q ≠ p.valueAt q →
          n ∈ p.graph.order id) ↔
        id ∉ p.graph.computed ∨ p₁.data = p.data) ∧
      (p.graph.forest.size < depth →
        (∀ n ∈ p.graph.order id, ∀ p₂ p₃ : Page σ, SameShape p.graph p₂.graph →
          (cascade run).notify n p₂ = .done () p₃ → SameShape p₂.graph p₃.graph) →
        (cascade run).notifyAll depth id p₁ = (p.graph.order id).forM (cascade run).notify p₁) := by
  have hp := Plain.of_reached hdata h
  obtain ⟨-, r, hwrite⟩ := assign_eq_done hrun
  obtain ⟨p₁, hwritten, hcascade⟩ := write_eq_done hid hwrite
  refine ⟨p₁, hwritten, hcascade, ⟨fun hcovers => ?_, fun hfree n q hn hne => ?_⟩,
    fun hdepth hsteady => ?_⟩
  · refine Classical.byContradiction fun hnot => ?_
    obtain ⟨hcomputed, hchanged⟩ := not_or.mp hnot
    have hcomputed := Classical.not_not.mp hcomputed
    -- the root changes with the data, and the cascade of a computed node is the node alone
    have hroot := hcovers root [] (location?_root hp.grown) hchanged
    rw [order_of_mem_computed hp.grown hcomputed, List.mem_singleton] at hroot
    have hnone := location?_of_mem_computed hp.grown hcomputed
    rw [← hroot, location?_root hp.grown] at hnone
    cases hnone
  · obtain ⟨old, data, graph, hset, -, rfl⟩ := hwritten
    rcases hfree with hfree | hsame
    · exact mem_order_of_changed hp hpath hset hid hfree hn hne
    · exact absurd (congrArg (fun data : Value => (data.at? q).getD .null) hsame) hne
  · have hplace : (p.graph.place? id).isSome := by
      obtain ⟨old, data, graph, -, hgraph, -⟩ := hwritten
      unfold setPrevious at hgraph
      split at hgraph
      · next hcontains => simpa [contains, place?] using hcontains
      · cases hgraph
    refine Cascade.notifyAll_eq_forM (I := fun s => SameShape p.graph s.graph) hp.grown
      (fun _ hs => hs) hplace hdepth (fun n hn s s' hs hdone => ?_) hwritten.sameShape
    exact hs.trans (hsteady n hn s s' hs hdone)

/-- A page whose only data is an empty record, with a computed property that has a numeral for its
name. -/
def numeralPage : Page Unit :=
  assemble ⟨.record [], [], [("5", .done .null)], []⟩ [] [] .blank ()

/-- A write that starts with an index is done although the path resolves to a computed node, and its
cascade misses the root. -/
theorem assign_covers_iff_index : ∃ p' p₁ : Page Unit,
    assign (interpret 3) 3 [.index 5] (.bool true) numeralPage = .done () p' ∧
      Written numeralPage [.index 5] (.bool true) 1 p₁ ∧
      p₁.valueAt [] ≠ numeralPage.valueAt [] ∧
      ¬∀ n q, numeralPage.graph.location? n = some q → p₁.valueAt q ≠ numeralPage.valueAt q →
        n ∈ numeralPage.graph.order 1 := by
  have hreached : Reached .plain ⟨.record [], [], [("5", .done .null)], []⟩ numeralPage :=
    .start [] [] .blank ()
  have hid : numeralPage.graph.resolve [.index 5] = some 1 := by rfl
  have hcomputed : 1 ∈ numeralPage.graph.computed := by decide
  have hrun : ∃ p', assign (interpret 3) 3 [.index 5] (.bool true) numeralPage = .done () p' :=
    ⟨_, rfl⟩
  obtain ⟨p', hrun⟩ := hrun
  obtain ⟨p₁, hwritten, -, hcovers, -⟩ :=
    assign_covers_iff hreached (by decide) (by decide) hid hrun
  have hchanged : p₁.data ≠ numeralPage.data := by
    obtain ⟨old, data, graph, hset, -, rfl⟩ := hwritten
    cases hset
    intro h
    cases h
  refine ⟨p', p₁, hrun, hwritten, hchanged, fun h => ?_⟩
  exact (hcovers.mp h).elim (fun hnot => hnot hcomputed) hchanged

end ReactiveView.Page
