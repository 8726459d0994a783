import ReactiveView.Proofs.Page.Expansion
/-!
# Repeats over lists

The list of a page whose `items` are a list gets one item for each element, in order. The item at an
index stays bound to that index for good: setting `items` or an element changes what the items show,
and never how many there are. An item shows whatever the data has at its index, and nothing once
there is nothing any more, because the list got shorter or `items` is no list now.

`Repeats nodes stale p` is what holds all along: the items are the `nodes`, each is bound to its
index, and shows the value there unless it is `stale`. A write makes those items stale whose values
it may change, and its cascade covers all of these. The watchers of the page are quiet here: a
watcher may otherwise take the items apart.

Results:
* `Repeats.cascaded`: a cascade refreshes the items that it covers.
* `Repeats.set`: a set that succeeds keeps all items in place, and each shows its value.
* `compile_list`: the items of a compiled page, at once and after any number of sets.
-/
namespace ReactiveView

/-- Programs that only look at the page and keep things of their own. -/
inductive Program.Quiet {σ : Type} : Program σ → Prop
  | done (v : Value) : Quiet (.done v)
  | fail (e : Error) : Quiet (.fail e)
  | look {next : View σ → Program σ} (h : ∀ view, Quiet (next view)) : Quiet (.look next)
  | update {next : Program σ} (change : σ → σ) (h : Quiet next) : Quiet (.update change next)

namespace Page

open ReactiveView.Graph Run Template

variable {σ : Type} {p p' p'' : Page σ}

/-! ## Pages that differ in what they show -/

/-- A page that differs in its surface and in the host state only. -/
def Redrawn (p p' : Page σ) : Prop := ∃ surface host, p' = { p with surface, host }

theorem Redrawn.refl (p : Page σ) : Redrawn p p := ⟨p.surface, p.host, rfl⟩

theorem Redrawn.trans (h : Redrawn p p') (h' : Redrawn p' p'') : Redrawn p p'' := by
  obtain ⟨_, _, rfl⟩ := h
  obtain ⟨surface, host, rfl⟩ := h'
  exact ⟨surface, host, rfl⟩

theorem Redrawn.graph (h : Redrawn p p') : p'.graph = p.graph := by
  obtain ⟨_, _, rfl⟩ := h
  rfl

theorem interpret_of_quiet {program : Program σ} (hquiet : program.Quiet) {depth : Nat} {v : Value}
    (h : interpret depth program p = .done v p') : ∃ host, p' = { p with host } := by
  cases depth with
  | zero => cases h
  | succ depth =>
    rw [interpret] at h
    induction hquiet generalizing p with
    | done v =>
      cases h
      exact ⟨p'.host, rfl⟩
    | fail e => cases h
    | look _ ih => exact ih p.view h
    | update change _ ih =>
      obtain ⟨host, rfl⟩ := ih h
      exact ⟨host, rfl⟩

/-! ## Items and the elements that they show -/

/-- The path of the element at an index. -/
def elementPath (i : Nat) : Path := [.field "items", .index i]

/-- Whether an observer is the binding of the item for an index. -/
def IsItem (nodes : List Nat) (i : Nat) (o : Observer σ) : Prop :=
  ∃ node, nodes[i]? = some node ∧ o = .binding (itemBinding (node, .index i))

theorem IsItem.index_eq {nodes : List Nat} {i j : Nat} {o : Observer σ} (h : IsItem nodes i o)
    (h' : IsItem nodes j o) : i = j := by
  obtain ⟨node, -, rfl⟩ := h
  obtain ⟨node', -, heq⟩ := h'
  have htail := congrArg (fun b : Binding => b.expression.tail) (Observer.binding.inj heq)
  exact Segment.index.inj (List.head_eq_of_cons_eq htail)

/-- A page with the items `nodes` in its list. Each is bound to its index, and shows the value there
unless it is `stale`. Apart from the items, only quiet watchers observe the data. -/
structure Repeats (nodes : List Nat) (stale : Nat → Prop) (p : Page σ) : Prop where
  named : Named p
  shown : ∃ items, items.map (·.1) = nodes ∧ p.surface.Lists items ∧
    ∀ i x, items[i]? = some x → ¬stale i → x.2 = (p.valueAt (elementPath i)).render
  heard : ∀ n, ∀ o ∈ p.graph.observers n, (∃ i, IsItem nodes i o) ∨
    ∃ w, o = .watcher w ∧ ∀ current previous, (w current previous).Quiet
  bound : ∀ i < nodes.length, ∃ n, p.graph.walk root (elementPath i).keys = some n ∧
    ∃ o ∈ p.graph.observers n, IsItem nodes i o

variable {nodes : List Nat} {stale stale' : Nat → Prop}

theorem Repeats.imp (h : Repeats nodes stale p)
    (himp : ∀ i < nodes.length, stale i → stale' i) : Repeats nodes stale' p := by
  obtain ⟨items, hnodes, hlists, htexts⟩ := h.shown
  refine { h with shown := ⟨items, hnodes, hlists, fun i x hx hfresh => ?_⟩ }
  refine htexts i x hx fun hstale => hfresh (himp i ?_ hstale)
  rw [← hnodes, List.length_map]
  exact (List.getElem?_eq_some_iff.mp hx).1

/-- What leads to an element starts at a field of the data. -/
theorem field?_items (hp : Named p) {key : String} {n : Nat}
    (hwalk : p.graph.walk root ["items", key] = some n) :
    ∃ v, p.data.field? "items" = some v := by
  rw [walk_cons] at hwalk
  obtain ⟨c, hc, -⟩ := Option.bind_eq_some_iff.mp hwalk
  have hfirst : p.graph.walk root ["items"] = some c := by
    rw [walk_cons, hc]
    rfl
  exact field?_head hp read_items hfirst

theorem member?_items {v : Value} (hv : p.data.field? "items" = some v) (i : Nat) :
    (v.member? (.index i)).getD .null = p.valueAt (elementPath i) := by
  rw [valueAt, elementPath, Value.at?, member?_of_field? hv, Option.bind_some, Value.at?]
  exact congrArg (Option.getD · _) (Option.bind_fun_some _).symm

/-- The item for an index rendered. -/
theorem render_element {items : List (Nat × String)} (h : p.surface.Lists items) {i node : Nat}
    {t : String} (hx : items[i]? = some (node, t)) {v : Value}
    (hv : p.data.field? "items" = some v) (run : Program σ → Run (Page σ) Value) :
    ∃ surface, render run (itemBinding (node, .index i)) p = .done () { p with surface } ∧
      surface.Lists (items.set i (node, (p.valueAt (elementPath i)).render)) := by
  obtain ⟨hi, hget⟩ := List.getElem?_eq_some_iff.mp hx
  have hset : ∀ y, items.set i y = items.take i ++ y :: items.drop (i + 1) := fun y => by
    rw [List.set_eq_take_append_cons_drop, if_pos hi]
  have hsplit : items = items.take i ++ (node, t) :: items.drop (i + 1) := by
    rw [← hset, ← hget, List.set_getElem_self]
  rw [hset, ← member?_items hv]
  exact render_item (hsplit ▸ h) hv (.index i) run

/-! ## Cascades -/

section

variable {depth n : Nat} {current previous : Value}

/-- The item for an index that is rendered is fresh. -/
theorem Repeats.rendered (h : Repeats nodes stale p) {i node : Nat} (hnode : nodes[i]? = some node)
    {run : Program σ → Run (Page σ) Value}
    (hrun : render run (itemBinding (node, .index i)) p = .done () p') :
    Redrawn p p' ∧ Repeats nodes (fun j => stale j ∧ j ≠ i) p' := by
  obtain ⟨items, hnodes, hlists, htexts⟩ := h.shown
  obtain ⟨n, hwalk, -⟩ := h.bound i (List.getElem?_eq_some_iff.mp hnode).1
  obtain ⟨v, hv⟩ := field?_items h.named hwalk
  obtain ⟨⟨node', t⟩, hx, rfl⟩ : ∃ x, items[i]? = some x ∧ x.1 = node := by
    rw [← hnodes, List.getElem?_map] at hnode
    exact Option.map_eq_some_iff.mp hnode
  obtain ⟨surface, hrender, hlists'⟩ := render_element hlists hx hv run
  rw [hrender] at hrun
  cases hrun
  refine ⟨⟨surface, p.host, rfl⟩, h.named.withSurface hlists'.sound, ⟨_, ?_, hlists', ?_⟩, h.heard,
    h.bound⟩
  · obtain ⟨hi, heq⟩ := List.getElem?_eq_some_iff.mp hnode
    rw [List.map_set, hnodes, ← heq, List.set_getElem_self]
  · intro j y hy hfresh
    rw [List.getElem?_set] at hy
    split at hy
    · next hij =>
      split at hy <;> cases hy
      rw [hij]
      rfl
    · next hij => exact htexts j y hy fun hstale => hfresh ⟨hstale, Ne.symm hij⟩

/-- An observer that is called makes its item fresh, if it is one's. -/
theorem Repeats.called (h : Repeats nodes stale p) {o : Observer σ} (ho : o ∈ p.graph.observers n)
    (hrun : callObserver (interpret depth) o current previous p = .done () p') :
    Redrawn p p' ∧ Repeats nodes (fun i => stale i ∧ ¬IsItem nodes i o) p' := by
  rcases h.heard n o ho with ⟨i, node, hnode, rfl⟩ | ⟨w, rfl, hquiet⟩
  · obtain ⟨hredrawn, hrendered⟩ := h.rendered hnode hrun
    refine ⟨hredrawn, hrendered.imp ?_⟩
    rintro j - ⟨hstale, hne⟩
    exact ⟨hstale, fun hitem => hne (hitem.index_eq ⟨node, hnode, rfl⟩)⟩
  · obtain ⟨v, p₁, hprogram, hdone⟩ := bind_eq_done hrun
    cases hdone
    obtain ⟨host, rfl⟩ := interpret_of_quiet (hquiet current previous) hprogram
    have hkept : Repeats nodes stale { p with host } :=
      ⟨⟨h.named.surface, h.named.keyed⟩, h.shown, h.heard, h.bound⟩
    refine ⟨⟨p.surface, host, rfl⟩, hkept.imp fun i _ hstale => ⟨hstale, ?_⟩⟩
    rintro ⟨node, -, heq⟩
    cases heq

theorem Repeats.observers (h : Repeats nodes stale p) {os : List (Observer σ)}
    (hos : ∀ o ∈ os, o ∈ p.graph.observers n)
    (hrun : os.forM (fun o => callObserver (interpret depth) o current previous) p = .done () p') :
    Redrawn p p' ∧ Repeats nodes (fun i => stale i ∧ ¬∃ o ∈ os, IsItem nodes i o) p' := by
  induction os generalizing p stale with
  | nil =>
    cases hrun
    exact ⟨.refl _, h.imp fun i _ hstale => ⟨hstale, by simp⟩⟩
  | cons o os ih =>
    obtain ⟨_, p₁, hcall, hrest⟩ := bind_eq_done hrun
    obtain ⟨hredrawn, hcalled⟩ := h.called (hos o List.mem_cons_self) hcall
    have htail : ∀ o' ∈ os, o' ∈ p₁.graph.observers n := fun o' ho' =>
      hredrawn.graph ▸ hos o' (List.mem_cons_of_mem _ ho')
    obtain ⟨hredrawn', hkept⟩ := ih hcalled htail hrest
    refine ⟨hredrawn.trans hredrawn', hkept.imp fun i _ hstale => ⟨hstale.1.1, ?_⟩⟩
    rw [List.exists_mem_cons_iff]
    exact not_or.mpr ⟨hstale.1.2, hstale.2⟩

/-- Nodes of the data that are notified make the items that observe them fresh. -/
theorem Repeats.notified (h : Repeats nodes stale p) {ns : List Nat}
    (hns : ∀ n ∈ ns, ∃ q, p.graph.location? n = some q)
    (hrun : ns.forM (cascade (interpret depth)).notify p = .done () p') :
    Redrawn p p' ∧ Repeats nodes
      (fun i => stale i ∧ ¬∃ n ∈ ns, ∃ o ∈ p.graph.observers n, IsItem nodes i o) p' := by
  induction ns generalizing p stale with
  | nil =>
    cases hrun
    exact ⟨.refl _, h.imp fun i _ hstale => ⟨hstale, by simp⟩⟩
  | cons n ns ih =>
    obtain ⟨_, p₁, hnotify, hrest⟩ := bind_eq_done hrun
    obtain ⟨q, hq⟩ := hns n List.mem_cons_self
    obtain ⟨previous, hcalls⟩ := notify_eq_done hq hnotify
    obtain ⟨hredrawn, hnotified⟩ := h.observers (fun _ ho => ho) hcalls
    have htail : ∀ m ∈ ns, ∃ q, p₁.graph.location? m = some q := fun m hm =>
      hredrawn.graph ▸ hns m (List.mem_cons_of_mem _ hm)
    obtain ⟨hredrawn', hkept⟩ := ih hnotified htail hrest
    refine ⟨hredrawn.trans hredrawn', hkept.imp fun i _ hstale => ⟨hstale.1.1, ?_⟩⟩
    rw [List.exists_mem_cons_iff]
    exact not_or.mpr ⟨hstale.1.2, hredrawn.graph ▸ hstale.2⟩

/-- The cascade of a node of the data makes the items fresh that observe the nodes that it covers. -/
theorem Repeats.cascaded (h : Repeats nodes stale p) {id : Nat} {q : Path}
    (hid : p.graph.location? id = some q)
    (hrun : (cascade (interpret depth)).notifyAll depth id p = .done () p') :
    Repeats nodes (fun i => stale i ∧
      ¬∃ n ∈ p.graph.order id, ∃ o ∈ p.graph.observers n, IsItem nodes i o) p' := by
  have hgrown := h.named.keyed.grown
  have horder : (p.graph.order id).forM (cascade (interpret depth)).notify p = .done () p' := by
    refine cascade_eq_done (tracks_interpret (Nat.le_refl depth)) hgrown hid
      (I := fun s => Redrawn p s ∧ Repeats nodes stale s)
      (fun _ hs => hs.1.graph ▸ .refl _) ?_ ⟨.refl p, h⟩ hrun
    intro n r s s' hr hs hdone
    have hone : [n].forM (cascade (interpret depth)).notify s = .done () s' := by
      exact bind_of_done hdone
    obtain ⟨hredrawn, hkept⟩ := hs.2.notified
      (List.forall_mem_singleton.mpr ⟨r, hs.1.graph ▸ hr⟩) hone
    exact ⟨hs.1.trans hredrawn, hkept.imp fun _ _ hstale => hstale.1⟩
  exact (h.notified (fun n hn => location?_of_mem_order hgrown hid hn) horder).2

end

/-! ## Sets -/

theorem isPlain_items : Segment.isPlain (.field "items") := by decide +kernel

theorem isPlain_elementPath (i : Nat) : Path.isPlain (elementPath i) := by
  rw [elementPath, Path.isPlain, List.all_cons, isPlain_items]
  rfl

/-- A write makes those items stale whose values it may change. -/
theorem Repeats.written (h : Repeats nodes (fun _ => False) p) {path : Path} {x old data : Value}
    (hpath : path ≠ []) (hplain : path.isPlain) (hfree : p.isReadOnly path = false)
    (hset : p.data.set path x = .ok (old, data)) :
    Repeats nodes (fun i => (elementPath i).keys <+: path.keys ∨ path.keys <+: (elementPath i).keys)
      { p with data } := by
  obtain ⟨items, hnodes, hlists, htexts⟩ := h.shown
  refine ⟨h.named.change (.write ⟨hpath, hfree⟩ hset), ⟨items, hnodes, hlists, ?_⟩, h.heard,
    h.bound⟩
  intro i y hy hfresh
  have hsame : (data.at? (elementPath i)).getD .null = p.valueAt (elementPath i) :=
    Classical.byContradiction fun hne =>
      hfresh (prefix_of_changed hplain (isPlain_elementPath i) hset hne)
  rw [htexts i y hy id, ← hsame]
  rfl

/-- A recorded value changes nothing that items show. -/
theorem Repeats.recorded (h : Repeats nodes stale p) {id : Nat} {v : Value}
    {graph : Graph (Observer σ)} (hgraph : p.graph.setPrevious id v = .ok graph) :
    Repeats nodes stale { p with graph } := by
  have hobservers := observers_setPrevious hgraph
  refine ⟨h.named.change (.previous hgraph), h.shown, fun n => ?_, fun i hi => ?_⟩
  · show ∀ o ∈ graph.observers n, _
    rw [hobservers]
    exact h.heard n
  · obtain ⟨n, hwalk, hitem⟩ := h.bound i hi
    refine ⟨n, ((sameShape_setPrevious hgraph).walk _ _).trans hwalk, ?_⟩
    show ∃ o ∈ graph.observers n, _
    rwa [hobservers]

/-- A set of the list or of an element that is done keeps all items in place, and each shows its
value. -/
theorem Repeats.set (h : Repeats nodes (fun _ => False) p) {depth : Nat} {source : String}
    {x : Value} {e : Expression} (hread : Expression.read source = .ok e)
    (hpath : e.path = [.field "items"] ∨ ∃ k, e.path = elementPath k)
    (hrun : set (interpret depth) depth source x p = .done () p') :
    Repeats nodes (fun _ => False) p' := by
  have hgrown := h.named.keyed.grown
  have hplain : Path.isPlain e.path := by
    rcases hpath with hpath | ⟨k, hpath⟩ <;> rw [hpath]
    · simp [Path.isPlain, isPlain_items]
    · exact isPlain_elementPath k
  have hshort : e.path.keys.length ≤ 2 := by
    rcases hpath with hpath | ⟨k, hpath⟩ <;> rw [hpath]
    · exact Nat.le_succ 1
    · exact Nat.le_refl 2
  obtain ⟨e', hread', hfree, hset⟩ := set_eq_done h.named hrun
  rw [hread] at hread'
  cases hread'
  rcases hset with ⟨id, q, p₁, hwalk, hq, ⟨old, data, graph, hset, hgraph, rfl⟩, hcascade⟩ |
    ⟨hnone, old, data, hset, rfl⟩
  · have hshape := sameShape_setPrevious hgraph
    have hwritten := (h.written (List.cons_ne_nil _ _) hplain hfree hset).recorded hgraph
    refine (hwritten.cascaded ((hshape.location id).trans hq) hcascade).imp ?_
    -- the cascade covers whatever the write has changed
    rintro i hi ⟨hextends, hcover⟩
    obtain ⟨n, hn, hitem⟩ := hwritten.bound i hi
    exact hcover ⟨n, mem_order_of_prefix (hshape.grown hgrown) ((hshape.walk _ _).trans hwalk) hn
      hextends, hitem⟩
  · -- a path to an item, or to what is above it, would lead to a node
    refine (h.written (List.cons_ne_nil _ _) hplain hfree hset).imp ?_
    rintro i hi hextends
    obtain ⟨n, hn, -⟩ := h.bound i hi
    have hwalk : ∃ c, p.graph.walk root e.path.keys = some c := by
      rcases hextends with hextends | ⟨rest, hrest⟩
      · exact ⟨n, hextends.eq_of_length_le hshort ▸ hn⟩
      · rw [← hrest, walk_append] at hn
        obtain ⟨c, hc, -⟩ := Option.bind_eq_some_iff.mp hn
        exact ⟨c, hc⟩
    obtain ⟨c, hc⟩ := hwalk
    rw [resolve_of_walk hc] at hnone
    cases hnone

/-! ## The compiled page -/

/-- An element of a list in the data has a place in the data. -/
theorem elementPath_mem_memberPaths {data : Value} {elements : List Value}
    (hitems : data.field? "items" = some (.list elements)) {i : Nat} (hi : i < elements.length) :
    elementPath i ∈ data.memberPaths := by
  have hlist : (Segment.field "items", Value.list elements) ∈ data.members := by
    cases data with
    | record entries => exact List.mem_map.mpr ⟨_, Value.mem_of_get? hitems, rfl⟩
    | _ => cases hitems
  have helement : (Segment.index i, elements[i]) ∈ (Value.list elements).members :=
    List.mem_mapIdx.mpr ⟨i, hi, rfl⟩
  exact Value.cons_mem_memberPaths.mpr ⟨_, hlist, rfl, List.mem_cons_of_mem _
    (Value.cons_mem_memberPaths.mpr ⟨_, helement, rfl, List.mem_cons_self⟩)⟩

/-- What has a place in the data has a node on the page at the start. -/
theorem walk_assemble {options : Options σ} (hdata : options.data.isDistinct) {path : Path}
    (hpath : path ∈ options.data.memberPaths) (registry : Registry σ) (scopes : Entries Value)
    (surface : Surface (Listener σ)) (host : σ) :
    ∃ n, (assemble options registry scopes surface host).graph.walk root path.keys = some n := by
  have hgraph : (assemble options registry scopes surface host).graph.Grown ∧
      ∃ n, (assemble options registry scopes surface host).graph.walk root path.keys = some n := by
    refine assemble_graph (J := fun g => g.Grown ∧ ∃ n, g.walk root path.keys = some n)
      ⟨grown_ofData _, ?_⟩ (fun g name _ h => ?_) (fun g g' id w _ ho h => ?_) registry scopes
      surface host
    · obtain ⟨k, hk⟩ := List.mem_iff_getElem?.mp hpath
      exact ⟨k + 1, walk_location? (grown_ofData _) (location?_ofData hdata hk)⟩
    · obtain ⟨n, hn⟩ := h.2
      exact ⟨grown_insertComputed h.1 name, n, walk_insertComputed h.1 hn⟩
    · have hshape := sameShape_observe ho
      exact ⟨hshape.grown h.1, by simpa only [hshape.walk] using h.2⟩
  exact hgraph.2

theorem shownText_index (v : Value) (i : Nat) :
    shownText v (.index i) = ((v.member? (.index i)).getD .null).render := by
  rw [shownText, show hasMark (escapeSegment (.index i)).key.toList = false from hasMark_index i]
  rfl

theorem hears_index_iff {ω : Type} {g : Graph ω} {node i n : Nat} {o : Observer σ} :
    Hears g (node, .index i) n o ↔ g.walk root (elementPath i).keys = some n ∧
      o = .binding (itemBinding (node, .index i)) := by
  exact and_iff_right (hasMark_index i)

/-- Compiling the page binds an item to each index of the list. -/
theorem repeats_repeatPage {options : Options σ} {elements : List Value}
    (hdata : options.data.isDistinct) (hitems : options.data.field? "items" = some (.list elements))
    (hlength : elements.length ≤ Text.indexLimit)
    (hquiet : ∀ w ∈ options.watches, ∀ current previous, (w.2 current previous).Quiet)
    (scopes : Entries Value) (host : σ) (run : Program σ → Run (Page σ) Value) {depth : Nat}
    (hdepth : 6 ≤ depth) : ∃ p nodes,
      compile run depth (.selector "#app") (repeatPage options scopes host) = .done () p ∧
      p.data = options.data ∧ nodes.length = elements.length ∧
      Repeats nodes (fun _ => False) p := by
  have haccessible : ∀ m ∈ (Value.list elements).members, Accessible m.1 := by
    intro m hm
    obtain ⟨i, hi, rfl⟩ := List.mem_mapIdx.mp hm
    exact Nat.lt_of_lt_of_le hi hlength
  obtain ⟨surface, graph, items, hcompile, hsegments, hlists, hshape, hobservers⟩ :=
    compile_repeatPage hitems haccessible scopes host run hdepth
  have hcount : items.length = elements.length := by
    simpa [Value.members] using congrArg List.length hsegments
  have hindex : ∀ (i : Nat) (x : Nat × Segment), items[i]? = some x → x = (x.1, .index i) := by
    intro i x hx
    have hsegment := congrArg (·[i]?) hsegments
    simp only [Value.members, List.getElem?_map, List.getElem?_mapIdx, hx, Option.map_some]
      at hsegment
    obtain ⟨m, hm, heq⟩ := Option.map_eq_some_iff.mp hsegment.symm
    obtain ⟨u, -, rfl⟩ := Option.map_eq_some_iff.mp hm
    rw [show Segment.index i = x.2 from heq]
  have hnode : ∀ (i : Nat) (x : Nat × Segment), items[i]? = some x →
      (items.map (·.1))[i]? = some x.1 := by
    intro i x hx
    rw [List.getElem?_map, hx]
    rfl
  refine ⟨_, items.map (·.1), hcompile, rfl, by rw [List.length_map, hcount], ?_, ?_, ?_, ?_⟩
  · exact (Named.assemble options _ scopes Surface.sound_repeatSurface host).keeps hlists.sound
      hshape
  · refine ⟨_, List.map_map, hlists, fun i y hy _ => ?_⟩
    obtain ⟨x, hx, rfl⟩ := Option.map_eq_some_iff.mp (List.getElem?_map .. ▸ hy)
    have hvalue := @member?_items _ { repeatPage options scopes host with surface, graph } _ hitems i
    rw [hindex i x hx, ← hvalue]
    exact shownText_index _ i
  · intro n o ho
    rcases (hobservers n o).mp ho with hold | ⟨x, hx, hhears⟩
    · obtain ⟨w, hw, rfl⟩ := observers_assemble _ scopes _ host n o hold
      exact .inr ⟨w.2, rfl, hquiet w hw⟩
    · obtain ⟨i, hi⟩ := List.mem_iff_getElem?.mp hx
      rw [hindex i x hi] at hhears
      exact .inl ⟨i, x.1, hnode i x hi, (hears_index_iff.mp hhears).2⟩
  · intro i hi
    rw [List.length_map] at hi
    have hx : items[i]? = some items[i] := List.getElem?_eq_getElem hi
    obtain ⟨n, hwalk⟩ := walk_assemble hdata (elementPath_mem_memberPaths hitems (hcount ▸ hi))
      (Registry.withBuiltins []) scopes Surface.repeatSurface host
    refine ⟨n, (hshape.walk _ _).trans hwalk, _, ?_, items[i].1, hnode i _ hx, rfl⟩
    refine (hobservers n _).mpr (.inr ⟨items[i], List.getElem_mem hi, ?_⟩)
    rw [hindex i _ hx]
    exact hears_index_iff.mpr ⟨hwalk, rfl⟩

/-- The pages that successful sets of the list and of its elements lead to. -/
inductive ListSets (p : Page σ) : Page σ → Prop
  | refl : ListSets p p
  | set {p' p'' : Page σ} {depth : Nat} {source : String} {x : Value} {e : Expression}
      (h : ListSets p p') (hread : Expression.read source = .ok e)
      (hpath : e.path = [.field "items"] ∨ ∃ k, e.path = elementPath k)
      (hrun : set (interpret depth) depth source x p' = .done () p'') : ListSets p p''

theorem Repeats.sets (h : Repeats nodes (fun _ => False) p) (hsets : ListSets p p') :
    Repeats nodes (fun _ => False) p' := by
  induction hsets with
  | refl => exact h
  | set _ hread hpath hrun ih => exact ih.set hread hpath hrun

/-- What can be asked of the items of a page. -/
theorem Repeats.read (h : Repeats nodes (fun _ => False) p) : p.surface.find "ul" = .ok 2 ∧
    p.surface.children 2 = .ok nodes ∧ ∀ i node, nodes[i]? = some node →
      p.surface.tag node = .ok (some "li") ∧
      p.surface.textContent node = .ok ((p.data.at? (elementPath i)).elim "" Value.render) := by
  obtain ⟨items, rfl, hlists, htexts⟩ := h.shown
  obtain ⟨hfind, hchildren, hread⟩ := hlists.read
  refine ⟨hfind, hchildren, fun i node hnode => ?_⟩
  obtain ⟨x, hx, rfl⟩ := Option.map_eq_some_iff.mp (List.getElem?_map .. ▸ hnode)
  obtain ⟨htag, htext⟩ := hread x (List.mem_of_getElem? hx)
  refine ⟨htag, ?_⟩
  rw [htext, htexts i x hx id, valueAt]
  cases p.data.at? (elementPath i) <;> rfl

/-- Reading an element by its accessor. -/
theorem Repeats.evaluate (h : Repeats nodes stale p) {i : Nat} (hi : i < nodes.length)
    (hlimit : i < Text.indexLimit) (run : Program σ → Run (Page σ) Value) :
    Page.evaluate run (String.ofList (accessor "items".toList (.index i))) .page p
      = .done (p.valueAt (elementPath i)) p := by
  obtain ⟨n, hwalk, -⟩ := h.bound i hi
  obtain ⟨v, hv⟩ := field?_items h.named hwalk
  have haccessible : Accessible (.index i) := hlimit
  unfold Page.evaluate
  rw [read_accessor isName_items haccessible, ← member?_items hv]
  exact evaluate_access hv (.index i) run

/-- Compiling a page whose items are a list succeeds, and leaves an item for each element, in order.
They stay in place whatever the list and its elements are set to, and show the elements. -/
theorem compile_list {options : Options σ} {elements : List Value}
    (hdata : options.data.isDistinct) (hitems : options.data.field? "items" = some (.list elements))
    (hlength : elements.length ≤ Text.indexLimit)
    (hquiet : ∀ w ∈ options.watches, ∀ current previous, (w.2 current previous).Quiet)
    (scopes : Entries Value) (host : σ) {depth : Nat} (hdepth : 6 ≤ depth) :
    ∃ surface p list nodes, Surface.ofMarkup Surface.repeatMarkup = .ok surface ∧
      compile (interpret depth) depth (.selector "#app")
        (assemble options (Registry.withBuiltins []) scopes surface host) = .done () p ∧
      nodes.length = elements.length ∧
      (∀ (i : Nat) (v : Value), elements[i]? = some v →
        ∃ node, nodes[i]? = some node ∧ p.surface.textContent node = .ok v.render) ∧
      ∀ p', ListSets p p' → p'.surface.find "ul" = .ok list ∧
        p'.surface.children list = .ok nodes ∧ ∀ i node, nodes[i]? = some node →
          p'.surface.tag node = .ok (some "li") ∧
          p'.surface.textContent node = .ok ((p'.data.at? (elementPath i)).elim "" Value.render) ∧
          ∀ d, evaluate (interpret d) (String.ofList (accessor "items".toList (.index i))) .page p'
            = .done ((p'.data.at? (elementPath i)).getD .null) p' := by
  obtain ⟨p, nodes, hcompile, hsame, hcount, hrepeats⟩ :=
    repeats_repeatPage hdata hitems hlength hquiet scopes host (interpret depth) hdepth
  refine ⟨_, p, 2, nodes, Surface.ofMarkup_repeatMarkup, hcompile, hcount, ?_, fun p' hsets => ?_⟩
  · intro i v hv
    have hi : i < nodes.length := hcount ▸ (List.getElem?_eq_some_iff.mp hv).1
    have helement : options.data.at? (elementPath i) = some v := by
      rw [elementPath, Value.at?, member?_of_field? hitems, Option.bind_some]
      exact (Option.bind_fun_some _).trans hv
    refine ⟨nodes[i], List.getElem?_eq_getElem hi, ?_⟩
    rw [(hrepeats.read.2.2 i _ (List.getElem?_eq_getElem hi)).2, hsame, helement]
    rfl
  · have hkept := hrepeats.sets hsets
    obtain ⟨hfind, hchildren, hread⟩ := hkept.read
    refine ⟨hfind, hchildren, fun i node hnode => ?_⟩
    obtain ⟨htag, htext⟩ := hread i node hnode
    have hi := (List.getElem?_eq_some_iff.mp hnode).1
    exact ⟨htag, htext, fun d =>
      hkept.evaluate hi (Nat.lt_of_lt_of_le (hcount ▸ hi) hlength) (interpret d)⟩

/-- A page with a list of two elements. -/
def pairPage : Page Unit :=
  repeatPage ⟨.record [("items", .list [.bool true, .null])], [], [], []⟩ [] ()

/-- The page compiled. -/
def pairCompiled : Page Unit :=
  (compile (interpret 6) 6 (.selector "#app") pairPage).stateD pairPage

/-- The page after the list has been set to one of a single element. -/
def pairCut : Page Unit :=
  (set (interpret 2) 2 "items" (.list [.text "x"]) pairCompiled).stateD pairCompiled

/-- The item whose element is gone is still there, and shows nothing. -/
theorem compile_list_pair : ∃ list first second, pairCut.surface.find "ul" = .ok list ∧
    pairCut.surface.children list = .ok [first, second] ∧
    pairCut.surface.textContent first = .ok "x" ∧ pairCut.surface.textContent second = .ok "" := by
  obtain ⟨surface, p, list, nodes, hload, hcompile, hlength, -, hsets⟩ :=
    @compile_list Unit ⟨.record [("items", .list [.bool true, .null])], [], [], []⟩ _ (by decide)
      rfl (by decide) nofun [] () 6 (Nat.le_refl 6)
  obtain rfl : Surface.repeatSurface = surface :=
    Except.ok.inj (Surface.ofMarkup_repeatMarkup.symm.trans hload)
  -- the runs are evaluated once
  have hruns : (compile (interpret 6) 6 (.selector "#app") pairPage).isDone ∧
      (set (interpret 2) 2 "items" (.list [.text "x"]) pairCompiled).isDone ∧
      (pairCut.data.at? (elementPath 0)).elim "" Value.render = "x" ∧
      (pairCut.data.at? (elementPath 1)).elim "" Value.render = "" := by decide +kernel
  obtain ⟨hcompiled, hset, hfirst, hsecond⟩ := hruns
  obtain rfl : pairCompiled = p :=
    (Outcome.done.inj ((Outcome.eq_done hcompiled pairPage).symm.trans hcompile)).2
  have hcut := ListSets.set .refl read_items (.inl rfl) (Outcome.eq_done hset pairCompiled)
  obtain ⟨hfind, hchildren, hitem⟩ := hsets pairCut hcut
  obtain ⟨first, second, rfl⟩ := List.length_eq_two.mp hlength
  refine ⟨list, first, second, hfind, hchildren, ?_, ?_⟩
  · rw [(hitem 0 first rfl).2.1, hfirst]
  · rw [(hitem 1 second rfl).2.1, hsecond]

end Page

end ReactiveView
