import ReactiveView.Proofs.Page.Coupled
import ReactiveView.Proofs.Page.Directives
import ReactiveView.Proofs.Page.Expansion
import ReactiveView.Proofs.Surface.Coupling
/-!
# Two-way bindings

A part of a document is compiled in which nothing is bound but one expression: to the value of
elements, both ways, and as the only content of elements. The walk visits each element once and
finds it as it was in the document, because what it writes on the way stays at and below the element
that it visits. So the page that is compiled is coupled to the expression, every element of both
kinds is bound, and no other.

From then on, whatever happens in between, an event with a text on one of the elements either writes
the text to the data and to all elements, or it leaves the data alone.

Results:
* `compileNode_couples`: what the walk does at a node and below it.
* `ready_assemble`: a page is ready for its compilation.
* `round_trip_of_compile`: the round trip of a text.
-/
namespace ReactiveView

namespace Page

open ReactiveView.Graph Run Surface

variable {σ : Type} {source : String} {e : Expression} {id : Nat} {p p' p'' : Page σ}
  {D D' : Nat → Prop}

/-! ## Pages on their way through a compilation -/

/-- A coupled page with an expression text that names the node, and with no other directives than
those that every page can use. -/
structure Ready (source : String) (e : Expression) (id : Nat) (p : Page σ) : Prop
    extends Coupled e id p where
  reads : Expression.read source = .ok e
  registry : p.registry = Registry.withBuiltins []
  locate : p.graph.locate source = some id

/-- A part of the walk: it writes in place at nodes of `D` at most, and observers are only added. -/
structure Visited (D : Nat → Prop) (p p' : Page σ) : Prop where
  tree : Retouched D p.surface p'.surface
  observers : ∀ n, ∀ o ∈ p.graph.observers n, o ∈ p'.graph.observers n

theorem Visited.refl (D : Nat → Prop) (p : Page σ) : Visited D p p := ⟨.refl _ _, fun _ _ h => h⟩

theorem Visited.trans (h : Visited D p p') (h' : Visited D p' p'') : Visited D p p'' :=
  ⟨h.tree.trans h'.tree, fun n o ho => h'.observers n o (h.observers n o ho)⟩

theorem Visited.mono (h : Visited D p p') (hD : ∀ i, D i → D' i) : Visited D' p p' :=
  ⟨h.tree.mono hD, h.observers⟩

/-- A write in place that keeps the listeners. -/
theorem Ready.withSurface (hp : Ready source e id p) {surface : Surface (Listener σ)}
    (htree : Retouched D p.surface surface)
    (hlisteners : ∀ i event, surface.listeners i event = p.surface.listeners i event) :
    Ready source e id { p with surface } ∧ Visited D p { p with surface } := by
  have hsteady : Steady p { p with surface } :=
    ⟨.refl _, fun _ => rfl, htree.mono fun _ _ => trivial, hlisteners, rfl⟩
  have hnamed := hp.named.withSurface (htree.sound hp.named.surface)
  exact ⟨⟨hp.toCoupled.steady hsteady hnamed, hp.reads, hp.registry, hp.locate⟩, htree,
    fun _ _ h => h⟩

/-- A new binding of the expression to an open part of a node. -/
theorem Ready.observe (hp : Ready source e id p) {node : Nat} {part : Target}
    (hopen : part.Open p.surface node) {graph : Graph (Observer σ)}
    (h : p.graph.observe id (bindingOf e node part) = .ok graph) :
    Ready source e id { p with graph } ∧ Visited D p { p with graph } ∧
      bindingOf e node part ∈ graph.observers id := by
  have hshape := sameShape_observe h
  have hmem := mem_observers_observe h
  have hcoupled : Coupled e id { p with graph } :=
    { named := hp.named.keeps hp.named.surface hshape
      read := hp.read
      call := hp.call
      walk := by rw [hshape.walk, hp.walk]
      live := hp.live
      observer := fun n o ho => by
        rcases (hmem n o).mp ho with hold | ⟨rfl, rfl⟩
        · exact hp.observer n o hold
        · exact ⟨rfl, node, part, rfl, hopen⟩
      listener := hp.listener }
  refine ⟨⟨hcoupled, hp.reads, hp.registry, ?_⟩, ⟨.refl _ _, fun n o ho => ?_⟩, ?_⟩
  · rw [hshape.locate]
    exact hp.locate
  · exact (hmem n o).mpr (.inl ho)
  · exact (hmem id _).mpr (.inr ⟨rfl, rfl⟩)

/-- A new listener that writes back, on a node that has none. -/
theorem Ready.listen (hp : Ready source e id p) {node : Nat} {event : String}
    (hnone : ∀ event, p.surface.listeners node event = .ok []) {surface : Surface (Listener σ)}
    (h : p.surface.listen node event (backListener e) = .ok surface) :
    Ready source e id { p with surface } ∧ Visited (· = node) p { p with surface } ∧
      surface.listeners node event = .ok [backListener e] := by
  obtain ⟨htree, hlisten⟩ := listen_eq_ok h
  obtain ⟨hnew, hother⟩ := hlisten [] (hnone event)
  have hcoupled : Coupled e id { p with surface } :=
    { named := hp.named.withSurface (htree.sound hp.named.surface)
      read := hp.read
      call := hp.call
      walk := hp.walk
      live := hp.live
      observer := fun n o ho => by
        obtain ⟨hn, i, part, heq, hopen⟩ := hp.observer n o ho
        exact ⟨hn, i, part, heq, hopen.retouched htree⟩
      listener := fun i other ls hls => by
        by_cases hi : i = node
        · subst hi
          by_cases hevent : other = event
          · subst hevent
            exact .inr (Except.ok.inj (hls.symm.trans hnew))
          · exact .inl (Except.ok.inj (hls.symm.trans ((hother other hevent).trans (hnone other))))
        · exact hp.listener i other ls ((htree.listeners hi other).symm.trans hls) }
  exact ⟨⟨hcoupled, hp.reads, hp.registry, hp.locate⟩, ⟨htree, fun _ _ h => h⟩, hnew⟩

/-- A binding of the expression that is done writes its value, and becomes an observer. -/
theorem Ready.bind (hp : Ready source e id p) {run : Program σ → Run (Page σ) Value} {node : Nat}
    {text : String} {request : BindingRequest} (htext : Text.trimmed text = Text.trimmed source)
    (hscope : request.scope = .page) (hopen : request.target.Open p.surface node)
    (h : Page.bind run node text request p = .done () p') : ∃ p₁,
      Ready source e id p₁ ∧ Visited (request.target.Reach p.surface node) p p₁ ∧
      (∀ i event, p₁.surface.listeners i event = p.surface.listeners i event) ∧
      bindingOf e node request.target ∈ p₁.graph.observers id ∧
      (request.twoWay = false ∧ p' = p₁ ∨ request.twoWay = true ∧ ∃ surface,
        p₁.surface.listen node (request.event.getD Event.default)
          (.writeBack request.target e .page) = .ok surface ∧ p' = { p₁ with surface }) := by
  obtain ⟨surface, hwrite, hwrites⟩ :=
    writeTarget_of_open hp.named.surface hopen (p.valueAt e.path).render
  have hrender : render run ⟨node, request.target, e, request.scope⟩ p
      = .done () { p with surface } := by
    unfold render
    rw [hscope]
    exact (bind_of_done (hp.evaluate run)).trans hwrite
  obtain ⟨hp₁, hvisited⟩ := hp.withSurface hwrites.tree hwrites.listeners
  have hread : Expression.read (Text.trimmed text) = .ok e := by
    rw [htext]
    exact Expression.read_trimmed hp.reads
  have hid : p.graph.locate (Text.trimmed text) = some id := by
    rw [htext, locate_trimmed]
    exact hp.locate
  obtain ⟨graph, hgraph, hlast⟩ := observe_of_bind hread hp.call hrender hid h
  rw [hscope] at hgraph hlast
  have hopen' : request.target.Open surface node := hopen.retouched hwrites.tree
  obtain ⟨hp₂, hvisited', hmem⟩ :=
    hp₁.observe (D := request.target.Reach p.surface node) hopen' hgraph
  exact ⟨_, hp₂, hvisited.trans hvisited', hwrites.listeners, hmem, hlast⟩

/-! ## One element -/

/-- What an element of the document was marked for and what it held is bound. -/
structure Served (s : Surface (Listener σ)) (source : String) (e : Expression) (id : Nat)
    (p : Page σ) (i : Nat) : Prop where
  model : (s.model? i).isSome → p.surface.listeners i "input" = .ok [backListener e] ∧
    bindingOf e i (.attributeNamed "value") ∈ p.graph.observers id
  content : s.Interpolates i source → bindingOf e i .content ∈ p.graph.observers id

theorem Served.visited {s : Surface (Listener σ)} {i : Nat} (h : Served s source e id p i)
    (hv : Visited D p p') (hi : ¬D i) : Served s source e id p' i where
  model hmodel := by
    obtain ⟨hlisteners, hmem⟩ := h.model hmodel
    exact ⟨(hv.tree.listeners hi "input").trans hlisteners, hv.observers _ _ hmem⟩
  content hcontent := hv.observers _ _ (h.content hcontent)

/-- The directive of an element that is not repeated is the one that binds it both ways. -/
theorem applicable?_of_single (hregistry : p.registry = Registry.withBuiltins []) {i : Nat}
    (hsingle : p.surface.marked? i Registry.repeatName = none) : p.applicable? i
      = (p.surface.model? i).map fun text => (Registry.modelName, .model, text) := by
  have hregistry : p.registry = [(Registry.repeatName, .repeated), (Registry.modelName, .model)] :=
    hregistry
  rw [applicable?_eq, hregistry, List.findSome?_cons, hsingle, List.findSome?_cons, Surface.model?]
  cases p.surface.marked? i Registry.modelName <;> rfl

/-- The attribute of a directive is taken away before the directive is carried out. -/
theorem Ready.removeAttribute (hp : Ready source e id p) {i : Nat} (hi : p.surface.IsElement i)
    {name : String} (h : editSurface (.removeAttribute i name) p = .done () p') :
    Ready source e id p' ∧ Visited (· = i) p p' ∧
      ∀ j event, p'.surface.listeners j event = p.surface.listeners j event := by
  obtain ⟨tag, as, hel⟩ := hi
  cases h.symm.trans (editSurface_removeAttribute hel name)
  have hlisteners := listeners_mapContent (s := p.surface) i fun _ => .element tag (as.erase name)
  have htree := retouched_mapContent (d := .element tag (as.erase name)) hel rfl
  obtain ⟨hp', hvisited⟩ := hp.withSurface htree hlisteners
  exact ⟨hp', hvisited, hlisteners⟩

theorem applyDirective_ready (hp : Ready source e id p)
    {run : Program σ → Run (Page σ) Value} {compile : Nat → Run (Page σ) Unit} {i : Nat}
    (hi : p.surface.IsElement i) (hnone : ∀ event, p.surface.listeners i event = .ok [])
    (hsingle : p.surface.marked? i Registry.repeatName = none)
    (hmodel : ∀ text, p.surface.model? i = some text → Text.trimmed text = Text.trimmed source)
    {stopped : Bool} (h : applyDirective run compile i p = .done stopped p') :
    stopped = false ∧ Ready source e id p' ∧ Visited (· = i) p p' ∧
      ((p.surface.model? i).isSome → p'.surface.listeners i "input" = .ok [backListener e] ∧
        bindingOf e i (.attributeNamed "value") ∈ p'.graph.observers id) := by
  unfold applyDirective at h
  have hlook : Run.look (fun p : Page σ => p.applicable? i) p = .done (p.applicable? i) p := rfl
  rw [bind_of_done hlook, applicable?_of_single hp.registry hsingle] at h
  cases htext : p.surface.model? i with
  | none =>
    rw [htext] at h
    cases h
    exact ⟨rfl, hp, .refl _ _, nofun⟩
  | some text =>
    rw [htext] at h
    obtain ⟨_, p₁, hremove, hhandle⟩ := bind_eq_done h
    obtain ⟨hp₁, hvisited, hlisteners⟩ := hp.removeAttribute hi hremove
    obtain ⟨_, p₂, hbind, hlast⟩ := bind_eq_done hhandle
    cases hlast
    have hopen : (Target.attributeNamed "value").Open p₁.surface i :=
      Target.open_value (hvisited.tree.isElement hi)
    obtain ⟨p₃, hp₃, hvisited', hkept, hmem, hway⟩ := hp₁.bind (hmodel text htext) rfl hopen hbind
    rcases hway with ⟨hway, -⟩ | ⟨-, surface, hlisten, rfl⟩
    · cases hway
    · have hsilent : ∀ event, p₃.surface.listeners i event = .ok [] := fun event =>
        (hkept i event).trans ((hlisteners i event).trans (hnone event))
      obtain ⟨hp', hvisited'', hnew⟩ := hp₃.listen hsilent hlisten
      exact ⟨rfl, hp', (hvisited.trans hvisited').trans hvisited'', fun _ => ⟨hnew, hmem⟩⟩

/-- The content of an element is bound if it is an interpolation of the expression text. -/
theorem interpolate_ready (hp : Ready source e id p) {run : Program σ → Run (Page σ) Value}
    {i : Nat} {markup t : String} (hmarkup : p.surface.innerMarkup i = .ok markup)
    (hsome : Template.interpolation? markup = some (Text.trimmed source))
    (ht : p.surface.ShowsText i t) (h : interpolate run i p = .done () p') :
    Ready source e id p' ∧ Visited (p.surface.forest.Above i) p p' ∧
      (∀ j event, p'.surface.listeners j event = p.surface.listeners j event) ∧
      bindingOf e i .content ∈ p'.graph.observers id := by
  unfold interpolate at h
  rw [askSurface_bind hmarkup, hsome] at h
  have hopen : Target.content.Open p.surface i := ⟨t, ht⟩
  obtain ⟨p₁, hp₁, hvisited, hkept, hmem, hway⟩ :=
    hp.bind (Expression.trimmed_trimmed source) rfl hopen h
  rcases hway with ⟨-, rfl⟩ | ⟨hway, -⟩
  · exact ⟨hp₁, hvisited, hkept, hmem⟩
  · cases hway

/-! ## The walk -/

/-- An element is compiled by its directive, by what it interpolates and by its children. -/
theorem compileNode_eq_done {run : Program σ → Run (Page σ) Value} {depth i : Nat}
    (hi : p.surface.IsElement i) (h : compileNode run (depth + 1) i p = .done () p') :
    ∃ stopped p₁, applyDirective run (compileNode run depth) i p = .done stopped p₁ ∧
      (stopped = false → ∃ p₂, interpolate run i p₁ = .done () p₂ ∧
        ∃ cs, Surface.children p₂.surface i = .ok cs ∧
          cs.forM (compileChild run depth i) p₂ = .done () p') := by
  obtain ⟨tag, as, hel⟩ := hi
  unfold compileNode at h
  rw [askSurface_bind (content_of_content? hel)] at h
  obtain ⟨stopped, p₁, hdirective, hrest⟩ := bind_eq_done h
  refine ⟨stopped, p₁, hdirective, ?_⟩
  rintro rfl
  obtain ⟨_, p₂, hinterpolate, hrest⟩ := bind_eq_done hrest
  obtain ⟨cs, p₃, hchildren, hwalk⟩ := bind_eq_done hrest
  obtain ⟨hcs, rfl⟩ := askSurface_eq_done hchildren
  exact ⟨p₃, hinterpolate, cs, hcs, hwalk⟩

/-- A node that is no element is left alone. -/
theorem compileNode_of_leaf {run : Program σ → Run (Page σ) Value} {depth i : Nat}
    (hi : ¬p.surface.IsElement i) (h : compileNode run depth i p = .done () p') : p' = p := by
  cases depth with
  | zero => cases h
  | succ depth =>
    unfold compileNode at h
    obtain ⟨c, p₁, hcontent, hrest⟩ := bind_eq_done h
    obtain ⟨hc, rfl⟩ := askSurface_eq_done hcontent
    cases c with
    | element tag as =>
      refine absurd ⟨tag, as, ?_⟩ hi
      unfold Surface.content at hc
      split at hc
      · next heq =>
        cases hc
        exact heq
      · cases hc
    | document =>
      cases hrest
      rfl
    | text t =>
      cases hrest
      rfl
    | comment t =>
      cases hrest
      rfl

variable {s : Surface (Listener σ)}

/-- What the walk does at a node of the document `s` and below it, if it finds them as they were:
the page stays ready, only these nodes are written, and every element among them is served. -/
def Walks (s : Surface (Listener σ)) (source : String) (e : Expression) (id : Nat)
    (walk : Nat → Run (Page σ) Unit) (i : Nat) : Prop :=
  ∀ p p', Ready source e id p → Retouched (fun j => ¬s.forest.Spans i j) s p.surface →
    walk i p = .done () p' → Ready source e id p' ∧ Visited (s.forest.Spans i) p p' ∧
      ∀ j, s.Inside i j → Served s source e id p' j

/-- Children in a row: what is below one of them is not below another one, so each is found as it
was. -/
theorem walks_children (hs : s.forest.Sound) (hsound : s.Sound)
    {run : Program σ → Run (Page σ) Value} {depth i : Nat} {cs : List Nat} (hnodup : cs.Nodup)
    (hcs : ∀ c ∈ cs, c ∈ s.forest.children i)
    (hwalks : ∀ c ∈ cs, Walks s source e id (compileNode run depth) c)
    (hp : Ready source e id p)
    (hfresh : Retouched (fun j => ¬∃ c ∈ cs, s.forest.Spans c j) s p.surface)
    (h : cs.forM (compileChild run depth i) p = .done () p') :
    Ready source e id p' ∧ Visited (fun j => ∃ c ∈ cs, s.forest.Spans c j) p p' ∧
      ∀ c ∈ cs, ∀ j, s.Inside c j → Served s source e id p' j := by
  induction cs generalizing p with
  | nil =>
    cases h
    exact ⟨hp, .refl _ _, nofun⟩
  | cons c cs ih =>
    obtain ⟨hc, hnodup⟩ := List.nodup_cons.mp hnodup
    have hparent : ∀ d ∈ c :: cs, s.forest.parent? d = some i :=
      fun d hd => (hs.linked.iff i d).mp (hcs d hd)
    obtain ⟨_, p₁, hchild, hrest⟩ := bind_eq_done h
    have hplace : c ∈ p.surface.forest.children i := by
      rw [hfresh.children]
      exact hcs c List.mem_cons_self
    rw [compileChild_of_mem hp.named.surface hplace] at hchild
    have hself : Retouched (fun j => ¬s.forest.Spans c j) s p.surface :=
      hfresh.mono fun j hj hc => hj ⟨c, List.mem_cons_self, hc⟩
    obtain ⟨hp₁, hvisited, hserved⟩ := hwalks c List.mem_cons_self p p₁ hp hself hchild
    -- what is below the children to come was not touched
    have hapart : ∀ j, (∃ d ∈ cs, s.forest.Spans d j) → ¬s.forest.Spans c j := by
      rintro j ⟨d, hd, hdj⟩ hcj
      have heq := hs.eq_of_spans (hparent c List.mem_cons_self)
        (hparent d (List.mem_cons_of_mem _ hd)) hcj hdj
      exact hc (heq ▸ hd)
    have hfresh₁ : Retouched (fun j => ¬∃ d ∈ cs, s.forest.Spans d j) s p₁.surface := by
      refine (hfresh.mono fun j hj => ?_).trans
        (hvisited.tree.mono fun j hj hmem => hapart j hmem hj)
      rintro ⟨d, hd, hdj⟩
      exact hj ⟨d, List.mem_cons_of_mem _ hd, hdj⟩
    obtain ⟨hp', hvisited', hserved'⟩ := ih hnodup (fun d hd => hcs d (List.mem_cons_of_mem _ hd))
      (fun d hd => hwalks d (List.mem_cons_of_mem _ hd)) hp₁ hfresh₁ hrest
    refine ⟨hp', ?_, fun d hd j hj => ?_⟩
    · refine (hvisited.mono fun j hj => ⟨c, List.mem_cons_self, hj⟩).trans (hvisited'.mono ?_)
      rintro j ⟨d, hd, hdj⟩
      exact ⟨d, List.mem_cons_of_mem _ hd, hdj⟩
    · rcases List.mem_cons.mp hd with rfl | hd
      · exact (hserved j hj).visited hvisited' fun hmem => hapart j hmem (hj.spans hsound)
      · exact hserved' d hd j hj

theorem not_isElement_of_showsText {ℓ : Type} {s : Surface ℓ} {i c : Nat} {t : String}
    (h : s.ShowsText i t) (hc : c ∈ s.forest.children i) : ¬s.IsElement c := by
  obtain ⟨-, d, hchildren, hd⟩ := h
  rw [hchildren] at hc
  cases List.mem_singleton.mp hc
  rintro ⟨tag, as, hel⟩
  rw [hd] at hel
  cases hel

section

variable (hs : s.WellFormed) {run : Program σ → Run (Page σ) Value} {depth i : Nat}

include hs

/-- An interpolation of the expression text. Below it there is nothing to visit but its text. -/
theorem walks_interpolation {markup : String} (hmarkup : s.innerMarkup i = .ok markup)
    (hsome : Template.interpolation? markup = some (Text.trimmed source)) {t : String}
    (ht : s.ShowsText i t) (hp : Ready source e id p)
    (hbelow : Retouched (fun j => ¬s.forest.Above i j) s p.surface)
    (h : interpolate run i p = .done () p') {cs : List Nat}
    (hcs : Surface.children p'.surface i = .ok cs)
    (hwalk : cs.forM (compileChild run depth i) p' = .done () p'') :
    Ready source e id p'' ∧ Visited (s.forest.Above i) p p'' ∧
      (∀ event, p''.surface.listeners i event = p.surface.listeners i event) ∧
      bindingOf e i .content ∈ p''.graph.observers id := by
  obtain ⟨u, hu⟩ := hbelow.exists_showsText ht
  have hmarkup' : p.surface.innerMarkup i = .ok markup :=
    (hbelow.innerMarkup hs.toSound fun j hj hn => hn hj).trans hmarkup
  obtain ⟨hp', hvisited, hkept, hmem⟩ := interpolate_ready hp hmarkup' hsome hu h
  have hvisited : Visited (s.forest.Above i) p p' :=
    hvisited.mono fun j hj => hj.mono fun c d hc => (hbelow.parent c).symm.trans hc
  obtain ⟨v, hv⟩ := hvisited.tree.exists_showsText hu
  have hshows := hv
  obtain ⟨⟨tag, as, hel⟩, c, hchildren, -⟩ := hshows
  have hcs' : cs = p'.surface.forest.children i :=
    Except.ok.inj (hcs.symm.trans (children_of_content? hel))
  rw [hcs', hchildren] at hwalk
  obtain ⟨_, p₁, hchild, hlast⟩ := bind_eq_done hwalk
  cases hlast
  have hplace : c ∈ p'.surface.forest.children i := hchildren ▸ List.mem_singleton_self c
  rw [compileChild_of_mem hp'.named.surface hplace] at hchild
  rw [compileNode_of_leaf (not_isElement_of_showsText hv hplace) hchild]
  exact ⟨hp', hvisited, hkept i, hmem⟩

/-- An element with another content. The content stays, and the children are visited. -/
theorem walks_plain
    (hwalks : ∀ c ∈ s.forest.children i, Walks s source e id (compileNode run depth) c)
    (hel : s.IsElement i) {markup : String} (hmarkup : s.innerMarkup i = .ok markup)
    (hnone : Template.interpolation? markup = none) (hp : Ready source e id p)
    (hbelow : Retouched (fun j => ¬s.forest.Above i j) s p.surface)
    (h : interpolate run i p = .done () p') {cs : List Nat}
    (hcs : Surface.children p'.surface i = .ok cs)
    (hwalk : cs.forM (compileChild run depth i) p' = .done () p'') :
    Ready source e id p'' ∧ Visited (s.forest.Above i) p p'' ∧
      ∀ c ∈ s.forest.children i, ∀ j, s.Inside c j → Served s source e id p'' j := by
  have hmarkup' : p.surface.innerMarkup i = .ok markup :=
    (hbelow.innerMarkup hs.toSound fun j hj hn => hn hj).trans hmarkup
  rw [interpolate_of_none hmarkup' hnone run] at h
  cases h
  have hcs' : cs = s.forest.children i := by
    obtain ⟨tag, as, hi⟩ := hel
    rw [hbelow.children_eq, children_of_content? hi] at hcs
    exact (Except.ok.inj hcs).symm
  subst hcs'
  have hchild : ∀ {c j}, c ∈ s.forest.children i → s.forest.Spans c j → s.forest.Above i j :=
    fun hc hj => hj.of_parent? ((hs.linked.iff i _).mp hc)
  obtain ⟨hp', hvisited, hserved⟩ := walks_children hs.sound_forest hs.toSound
    (hs.linked.nodup i) (fun _ hc => hc) hwalks hp
    (hbelow.mono fun j hj hmem => hj (hmem.elim fun c hc => hchild hc.1 hc.2)) hwalk
  exact ⟨hp', hvisited.mono fun j hj => hj.elim fun c hc => hchild hc.1 hc.2, hserved⟩

/-- The walk at a node and below it, where nothing is bound but the expression text. -/
theorem compileNode_couples (hsilent : s.Silent)
    (hchars : ∀ c ∈ source.toList, c ≠ '&' ∧ c ≠ '<' ∧ c ≠ '>')
    (hmark : Template.hasMark source.toList = false)
    (hcouples : ∀ j, s.Inside i j → s.Couples source j) :
    Walks s source e id (compileNode run depth) i := by
  induction depth generalizing i with
  | zero => exact fun p p' _ _ h => nomatch h
  | succ depth ih =>
    intro p p' hp hfresh h
    have hat : ¬¬s.forest.Spans i i := not_not.mpr (.inl rfl)
    by_cases hel : s.IsElement i
    · have hcouple := hcouples i (.self hel)
      have hcircle := hs.sound_forest.acyclic i
      have hinterpolates : s.Interpolates i source → ∃ markup, s.innerMarkup i = .ok markup ∧
          Template.interpolation? markup = some (Text.trimmed source) := fun hcontent =>
        interpolation?_of_interpolates hcontent hchars hmark
          (Template.trim_ne_nil_of_read hp.reads)
      -- the directive of the element, which leaves alone what is below
      obtain ⟨stopped, p₁, hdirective, hrest⟩ := compileNode_eq_done (hfresh.isElement hel) h
      obtain ⟨hstopped, hp₁, hvisited₁, hmodel⟩ := applyDirective_ready hp (hfresh.isElement hel)
        (fun event => (hfresh.listeners hat event).trans (listeners_of_silent hsilent hel event))
        ((hfresh.marked? hat _).trans hcouple.single)
        (fun text ht => hcouple.model text ((hfresh.marked? hat _).symm.trans ht)) hdirective
      have hmodel : (s.model? i).isSome →
          p₁.surface.listeners i "input" = .ok [backListener e] ∧
            bindingOf e i (.attributeNamed "value") ∈ p₁.graph.observers id := fun hsome =>
        hmodel (by rwa [model?, hfresh.marked? hat])
      have hbelow : Retouched (fun j => ¬s.forest.Above i j) s p₁.surface := by
        refine (hfresh.mono fun j hj habove => hj (.inr habove)).trans
          (hvisited₁.tree.mono fun j hj habove => ?_)
        rw [hj] at habove
        exact hcircle habove
      have hvisited₁ : Visited (s.forest.Spans i) p p₁ := hvisited₁.mono fun j hj => .inl hj.symm
      obtain ⟨p₂, hinterpolate, cs, hcs, hwalk⟩ := hrest hstopped
      rcases hcouple.content with hcontent | ⟨markup, hmarkup, hnone⟩
      · obtain ⟨markup, hmarkup, hsome⟩ := hinterpolates hcontent
        obtain ⟨t, inner, ht, -⟩ := hcontent
        obtain ⟨hp', hvisited₂, hkept, hmem⟩ :=
          walks_interpolation hs hmarkup hsome ht hp₁ hbelow hinterpolate hcs hwalk
        have hserved : Served s source e id p' i :=
          ⟨fun hsome => (hmodel hsome).imp (hkept _).trans (hvisited₂.observers _ _),
            fun _ => hmem⟩
        refine ⟨hp', hvisited₁.trans (hvisited₂.mono fun j hj => .inr hj), fun j hj => ?_⟩
        cases hj with
        | self _ => exact hserved
        | child _ hc hj => exact absurd hj.isElement.1 (not_isElement_of_showsText ht hc)
      · obtain ⟨hp', hvisited₂, hserved⟩ := walks_plain hs
          (fun c hc => ih fun j hj => hcouples j (.child hel hc hj)) hel hmarkup hnone hp₁ hbelow
          hinterpolate hcs hwalk
        have hself : Served s source e id p₁ i := by
          refine ⟨hmodel, fun hcontent => ?_⟩
          obtain ⟨markup', hmarkup', hsome⟩ := hinterpolates hcontent
          cases hmarkup.symm.trans hmarkup'
          rw [hnone] at hsome
          cases hsome
        refine ⟨hp', hvisited₁.trans (hvisited₂.mono fun j hj => .inr hj), fun j hj => ?_⟩
        cases hj with
        | self _ => exact hself.visited hvisited₂ hcircle
        | child _ hc hj => exact hserved _ hc j hj
    · have hel' : ¬p.surface.IsElement i := by
        rintro ⟨tag, as, hi⟩
        exact hel ⟨tag, as, (hfresh.content? hat).symm.trans hi⟩
      rw [compileNode_of_leaf hel' h]
      exact ⟨hp, .refl _ _, fun j hj => absurd hj.isElement.1 hel⟩

end

/-! ## Whole pages -/

/-- A page is ready for its compilation if it has no watchers, its document has no listeners, and
the expression text names a node of the data. -/
theorem ready_assemble {options : Options σ} (hwatches : options.watches = [])
    (scopes : Entries Value) (host : σ) (hreached : s.Reached) (hsilent : s.Silent)
    (hread : Expression.read source = .ok e) (hcall : e.isCall = false) {start : Page σ}
    (hstart : start = assemble options (Registry.withBuiltins []) scopes s host)
    {property : Property (Observer σ)} {path : Path}
    (hid : start.graph.locate source = some id)
    (hproperty : start.graph.property? id = some property)
    (hdata : property.source = .data path) : Ready source e id start := by
  subst hstart
  have hnamed := Named.assemble options (Registry.withBuiltins []) scopes
    (sound_of_reached hreached) host
  have hgrown := hnamed.keyed.grown
  have hplace : (assemble options (Registry.withBuiltins []) scopes s host).graph.place? id
      = some (property.key, .data path) := by
    rw [place?, hproperty, Option.map_some, hdata]
  have hroot : id ≠ root := by
    rintro rfl
    have hsame := congrArg (Option.map Prod.snd) (hplace.symm.trans hgrown.root)
    cases hsame
  have hcomputed :
      id ∉ (assemble options (Registry.withBuiltins []) scopes s host).graph.computed := by
    intro hmem
    obtain ⟨name, hname⟩ := hgrown.computed id hmem
    have hsame := congrArg (Option.map Prod.snd) (hplace.symm.trans hname)
    cases hsame
  exact
    { named := hnamed
      read := ⟨source, hread⟩
      call := hcall
      walk := walk_of_locate hgrown hread hcall hid hroot hcomputed
      live := rfl
      observer := fun n o ho => by
        obtain ⟨w, hw, -⟩ := observers_assemble _ _ _ _ n o ho
        rw [hwatches] at hw
        cases hw
      listener := fun i event ls hls => .inl (hsilent i event ls hls)
      reads := hread
      registry := rfl
      locate := hid }

/-- The node at which a document is compiled. -/
def Finds (s : Surface (Listener σ)) (top : Nat) : Mount → Prop
  | .node i => i = top
  | .selector source => s.find source = .ok top

theorem compile_of_finds {run : Program σ → Run (Page σ) Value} {depth top : Nat} {mount : Mount}
    (h : Finds p.surface top mount) : compile run depth mount p = compileNode run depth top p := by
  cases mount with
  | node i =>
    cases h
    rfl
  | selector source =>
    have hfind : (fun s : Surface (Listener σ) => s.find source) p.surface = .ok top := h
    exact askSurface_bind hfind _

/-- A part of a document is compiled in which nothing is bound but one expression text, which names
a node of the data, and nobody watches. Then, after any number of events and sets that may have
failed, an event with a text on an element that is bound both ways is done only if the text is the
value of the expression, the value of all such elements and the content of all elements that
interpolate the expression; and it fails only with the data as it was. It always ends if its depth
exceeds the size of the graph. -/
theorem round_trip_of_compile {options : Options σ} (hwatches : options.watches = [])
    (scopes : Entries Value) (host : σ) (hreached : s.Reached) (hsilent : s.Silent)
    (hread : Expression.read source = .ok e) (hcall : e.isCall = false)
    (hchars : ∀ c ∈ source.toList, c ≠ '&' ∧ c ≠ '<' ∧ c ≠ '>')
    (hmark : Template.hasMark source.toList = false) {start : Page σ}
    (hstart : start = assemble options (Registry.withBuiltins []) scopes s host)
    {property : Property (Observer σ)} {path : Path}
    (hid : start.graph.locate source = some id)
    (hproperty : start.graph.property? id = some property)
    (hdata : property.source = .data path) {mount : Mount} {top : Nat} (htop : Finds s top mount)
    (hcouples : ∀ i, s.Inside top i → s.Couples source i) {depth : Nat} {compiled page : Page σ}
    (hcompile : compile (interpret depth) depth mount start = .done () compiled)
    (hlater : Relation.ReflTransGen Touched compiled page) {input : Nat}
    (hinput : s.Inside top input) (hmodel : (s.model? input).isSome) (text : String)
    (levels : Nat) :
    match dispatch (interpret levels) levels input "input" (some text) page with
    | .done _ after =>
      (∀ run, evaluate run source .page after = .done (.text text) after) ∧
      (∀ i, s.Inside top i → (s.model? i).isSome →
        after.surface.attributeValue i "value" = .ok (some text)) ∧
      ∀ i, s.Inside top i → s.Interpolates i source → after.surface.textContent i = .ok text
    | .failed _ after => after.data = page.data
    | .exhausted => levels ≤ page.graph.forest.size := by
  have hstarted := ready_assemble hwatches scopes host hreached hsilent hread hcall hstart hid
    hproperty hdata
  have hsurface : start.surface = s := by rw [hstart]; rfl
  have hwalk : compileNode (interpret depth) depth top start = .done () compiled := by
    rw [← compile_of_finds (hsurface ▸ htop)]
    exact hcompile
  -- the document is compiled, and every element is served
  obtain ⟨hcompiled, hvisited, hserved⟩ := compileNode_couples (wellFormed_of_reached hreached)
    hsilent hchars hmark hcouples start compiled hstarted (hsurface ▸ .refl _ _) hwalk
  obtain ⟨hpage, hsteady⟩ := hcompiled.toCoupled.later hlater
  have htree : Retouched (fun _ => True) s page.surface :=
    (hsurface ▸ hvisited.tree.mono fun _ _ => trivial).trans hsteady.tree
  have hback : page.surface.listeners input "input" = .ok [backListener e] :=
    (hsteady.listeners _ _).trans ((hserved input hinput).model hmodel).1
  have hends := dispatch_back hpage (htree.isElement hinput.isElement.2) hback text levels levels
  cases hrun : dispatch (interpret levels) levels input "input" (some text) page with
  | done a after =>
    rw [hrun] at hends
    obtain ⟨hafter, hvalue, hshown⟩ := hends
    have hshown : ∀ i part, bindingOf e i part ∈ compiled.graph.observers id →
        part.Shows after.surface i text := fun i part hmem =>
      hshown i part (by rwa [hsteady.observers])
    refine ⟨fun run => ?_, fun i hi hsome => ?_, fun i hi hcontent => ?_⟩
    · unfold evaluate
      rw [hread]
      exact (hafter.evaluate run).trans (by rw [hvalue])
    · exact attributeValue_of_showsAttribute (hshown i _ ((hserved i hi).model hsome).2)
    · exact textContent_of_showsText hafter.named.surface
        (hshown i _ ((hserved i hi).content hcontent))
  | failed err after =>
    rw [hrun] at hends
    exact hends
  | exhausted =>
    rw [hrun] at hends
    exact hends

/-! ## A form -/

/-- A document with an element that is bound both ways, and one that interpolates. -/
def formMarkup : String :=
  "<div id=app><input vm-model='u.n'><p>\x7b\x7b u.n \x7d\x7d</p></div>"

/-- The text of the interpolation. -/
def formText : String := "\x7b\x7b u.n \x7d\x7d"

/-- The document as a surface. -/
def formSurface : Surface (Listener Unit) where
  forest.nodes := #[
    ⟨⟨.document, []⟩, none, [1]⟩,
    ⟨⟨.element "div" [("id", "app")], []⟩, some 0, [2, 3]⟩,
    ⟨⟨.element "input" [("vm-model", "u.n")], []⟩, some 1, []⟩,
    ⟨⟨.element "p" [], []⟩, some 1, [4]⟩,
    ⟨⟨.text formText, []⟩, some 3, []⟩]

theorem ofMarkup_formMarkup : ofMarkup formMarkup = .ok formSurface := by
  have hread : Markup.read formMarkup = .ok [.element "div" [("id", "app")] [
      .element "input" [("vm-model", "u.n")] [], .element "p" [] [.text formText]]] :=
    eq_ok_of_toOption (by decide +kernel)
  simp [ofMarkup, Surface.load, parseFragment, hread, Except.map, insertAll, Surface.insert,
    insertUnder, blank, Surface.push, Surface.attach, Surface.size, Surface.append,
    Surface.content?, Forest.push, Forest.empty, Forest.size, Forest.attach, Forest.detach,
    Forest.parent?, Forest.node?, Forest.content?, Forest.mapChildren, Forest.setParent,
    Forest.isAtOrAbove, Forest.ancestors, Array.modify, Array.modifyM, document, formSurface]
  rfl

theorem interpolates_formSurface : formSurface.Interpolates 3 "u.n" :=
  ⟨formText, " u.n ".toList, ⟨⟨"p", [], rfl⟩, 4, rfl, rfl⟩, by decide +kernel, by decide +kernel⟩

theorem inside_formSurface {i : Nat} (h : formSurface.Inside 1 i) : i ∈ [1, 2, 3] := by
  have hdown : ∀ i j, formSurface.Inside i j → i ∈ [1, 2, 3, 4] → j ∈ [1, 2, 3, 4] := by
    intro i j h
    induction h with
    | self _ => exact fun h => h
    | @child i c j _ hc _ ih =>
      have hclosed : ∀ i ∈ [1, 2, 3, 4], ∀ c ∈ formSurface.forest.children i, c ∈ [1, 2, 3, 4] := by
        decide
      exact fun hi => ih (hclosed i hi c hc)
  have hmem := hdown 1 i h (by decide)
  have hne : i ≠ 4 := by
    rintro rfl
    obtain ⟨-, tag, as, htext⟩ := h.isElement
    cases htext
  simpa [hne] using hmem

theorem couples_formSurface {i : Nat} (h : formSurface.Inside 1 i) :
    formSurface.Couples "u.n" i := by
  have hmem := inside_formSurface h
  have hsingle : ∀ i ∈ [1, 2, 3], formSurface.marked? i Registry.repeatName = none := by
    decide +kernel
  have hmodel : ∀ i ∈ [1, 2, 3], ∀ text, formSurface.model? i = some text → text = "u.n" := by
    intro i hi text
    have hall : ∀ i ∈ [1, 2, 3],
        formSurface.model? i = none ∨ formSurface.model? i = some "u.n" := by
      decide +kernel
    rcases hall i hi with hnone | hsome
    · rw [hnone]
      exact nofun
    · rw [hsome]
      exact fun htext => (Option.some.inj htext).symm
  refine ⟨hsingle i hmem, fun text htext => congrArg Text.trimmed (hmodel i hmem text htext), ?_⟩
  simp only [List.mem_cons, List.not_mem_nil, or_false] at hmem
  rcases hmem with rfl | rfl | rfl
  · refine .inr (interpolation?_of_elements ⟨"div", [("id", "app")], rfl⟩ fun c hc => ?_)
    have hchildren : formSurface.forest.children 1 = [2, 3] := rfl
    rw [hchildren] at hc
    simp only [List.mem_cons, List.not_mem_nil, or_false] at hc
    rcases hc with rfl | rfl
    · exact ⟨"input", [("vm-model", "u.n")], rfl⟩
    · exact ⟨"p", [], rfl⟩
  · exact .inr (interpolation?_of_elements ⟨"input", [("vm-model", "u.n")], rfl⟩ nofun)
  · exact .inl interpolates_formSurface

/-- The page of the form, with a record in a record. -/
def formPage : Page Unit :=
  assemble ⟨.record [("u", .record [("n", .null)])], [], [], []⟩ (Registry.withBuiltins []) []
    formSurface ()

/-- The page compiled. -/
def formCompiled : Page Unit :=
  (compile (interpret 4) 4 (.selector "#app") formPage).stateD formPage

/-- The page after the inner record was replaced by one without the field. -/
def formReplaced : Page Unit :=
  (set (interpret 4) 4 "u" (.record []) formCompiled).stateD formCompiled

/-- An input whose record was replaced in between writes its text to the record that is there now,
and shows it in both elements. -/
theorem round_trip_of_compile_form : ∃ after,
    dispatch (interpret 4) 4 2 "input" (some "x") formReplaced = .done () after ∧
    evaluate (interpret 4) "u.n" .page after = .done (.text "x") after ∧
    after.surface.attributeValue 2 "value" = .ok (some "x") ∧
    after.surface.textContent 3 = .ok "x" := by
  have hread : Expression.read "u.n" = .ok ⟨"u.n", "u", [.field "n"], false⟩ :=
    eq_ok_of_toOption (by decide +kernel)
  have hchars : ∀ c ∈ "u.n".toList, c ≠ '&' ∧ c ≠ '<' ∧ c ≠ '>' := by
    have htext : "u.n".toList = ['u', '.', 'n'] := rfl
    simp [htext]
  have hstart : formPage = assemble ⟨.record [("u", .record [("n", .null)])], [], [], []⟩
      (Registry.withBuiltins []) [] formSurface () := rfl
  have hplace : formPage.graph.place? 2 = some ("n", .data [.field "u", .field "n"]) := by
    decide +kernel
  obtain ⟨property, hproperty, hentry⟩ := Option.map_eq_some_iff.mp hplace
  have hfind : Finds formSurface 1 (.selector "#app") := eq_ok_of_toOption (by decide +kernel)
  -- the runs are evaluated once
  have hruns : (compile (interpret 4) 4 (.selector "#app") formPage).isDone ∧
      (set (interpret 4) 4 "u" (.record []) formCompiled).isDone ∧
      (dispatch (interpret 4) 4 2 "input" (some "x") formReplaced).isDone := by decide +kernel
  obtain ⟨hcompiled, hset, hdispatch⟩ := hruns
  have hreplaced : Relation.ReflTransGen Touched formCompiled formReplaced :=
    .single (.set (attempt_of_done (Outcome.eq_done hset formCompiled)))
  have hdiv : formSurface.IsElement 1 := ⟨"div", [("id", "app")], rfl⟩
  have hinput : formSurface.Inside 1 2 :=
    .child hdiv List.mem_cons_self (.self ⟨"input", [("vm-model", "u.n")], rfl⟩)
  have hshown : formSurface.Inside 1 3 :=
    .child hdiv (List.mem_cons_of_mem _ List.mem_cons_self) (.self ⟨"p", [], rfl⟩)
  have hmodel : (formSurface.model? 2).isSome := by decide +kernel
  have htrip := round_trip_of_compile rfl [] () (reached_of_ofMarkup ofMarkup_formMarkup)
    (silent_of_ofMarkup ofMarkup_formMarkup) hread rfl hchars (by decide +kernel)
    hstart (by decide +kernel) hproperty (Prod.mk.inj hentry).2 hfind
    (fun i hi => couples_formSurface hi) (Outcome.eq_done hcompiled formPage) hreplaced hinput
    hmodel "x" 4
  rw [Outcome.eq_done hdispatch formReplaced] at htrip
  obtain ⟨hvalue, hmodels, hcontents⟩ := htrip
  exact ⟨_, Outcome.eq_done hdispatch formReplaced, hvalue _, hmodels 2 hinput hmodel,
    hcontents 3 hshown interpolates_formSurface⟩

end Page

end ReactiveView
