import ReactiveView.Proofs.Markup.RoundTrip
import ReactiveView.Proofs.Page.Coherence
/-!
# Bound pages

A page is bound step by step: an expression is bound to the content or an attribute of an element,
a watcher is added, a value is set. What was bound so far is listed along. At the end of every step
the elements that were bound show the values of their expressions, whatever watchers set meanwhile.

The steps keep `Coheres`: the observers of the page are watchers and the bindings that were made,
and all these bindings are coherent.

Results:
* `coheres_of_bound`: every bound page coheres.
* `bound_shows`: an element that was bound shows the current value of its expression.
-/
namespace ReactiveView

/-- A binding that was made: the element, the expression text and the part of the element that shows
the value. -/
structure Bond where
  node : Nat
  source : String
  target : Target
  deriving DecidableEq, Repr

/-- The text of a part of a node. -/
def Target.Holds {ℓ : Type} (s : Surface ℓ) (node : Nat) (t : String) : Target → Prop
  | .content => s.textContent node = .ok t
  | .attributeNamed name => s.attributeValue node name = .ok (some t)

theorem Target.Shows.holds {ℓ : Type} {s : Surface ℓ} {node : Nat} {t : String} {target : Target}
    (hs : s.Sound) (h : target.Shows s node t) : target.Holds s node t := by
  cases target with
  | content => exact Surface.textContent_of_showsText hs h
  | attributeNamed name => exact Surface.attributeValue_of_showsAttribute h

namespace Page

open ReactiveView.Graph Run

variable {σ : Type} {options : Options σ} {made : List Bond} {p p' : Page σ}

/-- The pages on which `made` has been bound, to different elements, each to the content or an
attribute with a name in lower case, with an expression that led to a node of the data. At the start
nothing is bound, whatever else has happened to the page, and watchers only set. Values are set by
the host and by watchers on the way, at paths that lead to a node; the sets of the host succeed. All
paths are plain. -/
inductive Bound (options : Options σ) : List Bond → Page σ → Prop
  | start {p : Page σ} (h : Reached .below options p)
      (hwatchers : ∀ n, ∀ o ∈ p.graph.observers n, ∃ w, o = .watcher w ∧
        ∀ current previous, (w current previous).SetsOnly) : Bound options [] p
  | watch {made : List Bond} {p : Page σ} {id : Nat} {w : Value → Value → Program σ}
      {graph : Graph (Observer σ)} (h : Bound options made p)
      (hsets : ∀ current previous, (w current previous).SetsOnly)
      (hobserve : p.graph.observe id (.watcher w) = .ok graph) :
      Bound options made { p with graph }
  | bind {made : List Bond} {p p' : Page σ} {depth node id : Nat} {source : String}
      {request : BindingRequest} {e : Expression} (h : Bound options made p)
      (hnode : p.surface.IsElement node) (hnew : ∀ m ∈ made, m.node ≠ node)
      (hname : ∀ name, request.target = .attributeNamed name → Text.lowered name = name)
      (hscope : request.scope = .page) (hread : Expression.read source = .ok e)
      (hcall : e.isCall = false) (hplain : Path.isPlain e.path)
      (hid : p.graph.locate source = some id) (hroot : id ≠ root) (hdata : id ∉ p.graph.computed)
      (hrun : bind (interpret depth) node source request p = .done () p') :
      Bound options (⟨node, source, request.target⟩ :: made) p'
  | set {made : List Bond} {p p' : Page σ} {depth : Nat} {source : String} {x : Value}
      (h : Bound options made p) (hresolves : Policy.resolving p (.set source x))
      (hobeys : set (interpretUnder .resolving depth) depth source x p ≠ .exhausted)
      (hrun : set (interpret depth) depth source x p = .done () p') : Bound options made p'

/-- The observers of a page at the start are the watchers of the options. -/
theorem observers_assemble (registry : Registry σ) (scopes : Entries Value)
    (surface : Surface (Listener σ)) (host : σ) (n : Nat) :
    ∀ o ∈ (assemble options registry scopes surface host).graph.observers n,
      ∃ w ∈ options.watches, o = .watcher w.2 := by
  refine assemble_graph (J := fun g => ∀ o ∈ g.observers n, ∃ w ∈ options.watches, o = .watcher w.2)
    ?_ (fun g name _ h => ?_) (fun g g' id w hw ho h => ?_) registry scopes surface host
  · rw [observers_ofData]
    exact nofun
  · exact (observers_push (g := g) name (.computed name) n).symm ▸ h
  · intro o hmem
    rcases (mem_observers_observe ho n o).mp hmem with hold | ⟨-, rfl⟩
    · exact h o hold
    · exact ⟨w, hw, rfl⟩

/-- A page that is assembled from options whose watchers only set can be bound. -/
theorem Bound.assemble (hwatches : ∀ w ∈ options.watches, ∀ current previous,
      (w.2 current previous).SetsOnly) (registry : Registry σ) (scopes : Entries Value)
    {surface : Surface (Listener σ)} (hs : surface.Reached) (host : σ) :
    Bound options [] (assemble options registry scopes surface host) := by
  refine .start (.start registry scopes hs host) fun n o ho => ?_
  obtain ⟨w, hw, rfl⟩ := observers_assemble registry scopes surface host n o ho
  exact ⟨w.2, rfl, hwatches w hw⟩

/-- The observers of a page are the bindings that were made, all of them coherent, and watchers. -/
structure Coheres (made : List Bond) (p : Page σ) : Prop where
  wired : Wired p
  settled : Settled (fun _ => False) p
  observed : ∀ m ∈ made, ∃ n b, .binding b ∈ p.graph.observers n ∧ b.node = m.node ∧
    b.target = m.target ∧ Expression.read m.source = .ok b.expression
  only : ∀ n b, .binding b ∈ p.graph.observers n → ∃ m ∈ made, m.node = b.node

/-! ## Steps that leave the observers alone -/

theorem Coheres.frame (h : Coheres made p) (hframe : Frame p p') (hwired : Wired p')
    (hsettled : Settled (fun _ => False) p') : Coheres made p' where
  wired := hwired
  settled := hsettled
  observed m hm := by
    obtain ⟨n, b, hb, hrest⟩ := h.observed m hm
    exact ⟨n, b, by rwa [hframe.observers], hrest⟩
  only n b := by
    rw [hframe.observers]
    exact h.only n b

/-- A run that cleans bindings, or none, keeps a page coherent. -/
theorem Coheres.cleans {clean : Binding → Prop} (h : Coheres made p) (hclean : Cleans clean p p') :
    Coheres made p' :=
  h.frame hclean.frame hclean.wired
    (hclean.settled _ (h.settled.imp fun _ hb => .inl hb))

/-- A write into an element that was not bound keeps what the bound ones show. -/
theorem Coheres.keepsOthers (h : Coheres made p) {node : Nat} (hnew : ∀ m ∈ made, m.node ≠ node)
    {surface : Surface (Listener σ)} (hsound : surface.Sound)
    (hothers : p.surface.KeepsOthers surface node) : Coheres made { p with surface } := by
  have hframe : Frame p { p with surface } := ⟨.refl _, fun _ => rfl, hothers.element⟩
  refine h.frame hframe (hframe.wired h.wired (h.wired.named.withSurface hsound)) ?_
  intro n b hb hD
  obtain ⟨m, hm, hnode⟩ := h.only n b hb
  exact Target.Shows.keeps (h.settled n b hb hD) hothers (hnode ▸ hnew m hm)

theorem Coheres.listen (h : Coheres made p) {node : Nat} {event : String} {l : Listener σ}
    {surface : Surface (Listener σ)} (hl : p.surface.listen node event l = .ok surface) :
    Coheres made { p with surface } := by
  have hframe : Frame p { p with surface } := by
    refine ⟨.refl _, fun _ => rfl, ?_⟩
    rintro i ⟨tag, as, hi⟩
    exact ⟨tag, as, by rw [(Surface.listen_keeps hl).1, hi]⟩
  have hsound := Surface.sound_listen h.wired.named.surface hl
  refine h.frame hframe (hframe.wired h.wired (h.wired.named.withSurface hsound)) ?_
  exact fun n b hb hD => (h.settled n b hb hD).listen hl

/-! ## Steps that add an observer -/

/-- A new watcher that only sets. -/
theorem Coheres.watch (h : Coheres made p) {id : Nat} {w : Value → Value → Program σ}
    {graph : Graph (Observer σ)} (hsets : ∀ current previous, (w current previous).SetsOnly)
    (ho : p.graph.observe id (.watcher w) = .ok graph) : Coheres made { p with graph } := by
  have hshape := sameShape_observe ho
  have hold : ∀ n b, .binding b ∈ graph.observers n ↔ .binding b ∈ p.graph.observers n := by
    intro n b
    rw [mem_observers_observe ho]
    exact or_iff_left fun hb => nomatch hb.2
  refine ⟨⟨⟨h.wired.named.surface, h.wired.named.keyed.sameShape hshape⟩, ?_, ?_, ?_⟩, ?_, ?_, ?_⟩
  · intro n b hb
    exact (h.wired.binding n b ((hold n b).mp hb)).keeps hshape fun _ hi => hi
  · intro n m b c hb hc
    exact h.wired.distinct n m b c ((hold n b).mp hb) ((hold m c).mp hc)
  · intro n w' hw'
    rcases (mem_observers_observe ho n _).mp hw' with hw' | ⟨-, heq⟩
    · exact h.wired.watcher n w' hw'
    · cases heq
      exact hsets
  · exact fun n b hb => h.settled n b ((hold n b).mp hb)
  · intro m hm
    obtain ⟨n, b, hb, hrest⟩ := h.observed m hm
    exact ⟨n, b, (hold n b).mpr hb, hrest⟩
  · exact fun n b hb => h.only n b ((hold n b).mp hb)

/-- A new binding that is coherent already, of an element that was not bound. -/
theorem Coheres.observe (h : Coheres made p) {id : Nat} {b : Binding} {source : String}
    {graph : Graph (Observer σ)} (hbinds : Binds p id b) (hcoherent : Coherent p b)
    (hread : Expression.read source = .ok b.expression) (hnew : ∀ m ∈ made, m.node ≠ b.node)
    (ho : p.graph.observe id (.binding b) = .ok graph) :
    Coheres (⟨b.node, source, b.target⟩ :: made) { p with graph } := by
  have hshape := sameShape_observe ho
  have hcases : ∀ n c, .binding c ∈ graph.observers n ↔
      .binding c ∈ p.graph.observers n ∨ n = id ∧ c = b := by
    intro n c
    rw [mem_observers_observe ho, Observer.binding.injEq]
  have hother : ∀ n c, .binding c ∈ p.graph.observers n → c.node ≠ b.node := by
    intro n c hc
    obtain ⟨m, hm, hnode⟩ := h.only n c hc
    exact hnode ▸ hnew m hm
  refine ⟨⟨⟨h.wired.named.surface, h.wired.named.keyed.sameShape hshape⟩, ?_, ?_, ?_⟩, ?_, ?_, ?_⟩
  · intro n c hc
    rcases (hcases n c).mp hc with hc | ⟨rfl, rfl⟩
    · exact (h.wired.binding n c hc).keeps hshape fun _ hi => hi
    · exact hbinds.keeps hshape fun _ hi => hi
  · intro n m c d hc hd heq
    rcases (hcases n c).mp hc with hc | ⟨rfl, rfl⟩ <;>
      rcases (hcases m d).mp hd with hd | ⟨rfl, rfl⟩
    · exact h.wired.distinct n m c d hc hd heq
    · exact absurd heq (hother n c hc)
    · exact absurd heq.symm (hother m d hd)
    · rfl
  · intro n w hw
    rcases (mem_observers_observe ho n _).mp hw with hw | ⟨-, heq⟩
    · exact h.wired.watcher n w hw
    · cases heq
  · intro n c hc hD
    rcases (hcases n c).mp hc with hc | ⟨rfl, rfl⟩
    · exact h.settled n c hc hD
    · exact hcoherent
  · intro m hm
    rcases List.mem_cons.mp hm with rfl | hm
    · exact ⟨id, b, (hcases id b).mpr (.inr ⟨rfl, rfl⟩), rfl, rfl, hread⟩
    · obtain ⟨n, c, hc, hrest⟩ := h.observed m hm
      exact ⟨n, c, (hcases n c).mpr (.inl hc), hrest⟩
  · intro n c hc
    rcases (hcases n c).mp hc with hc | ⟨-, rfl⟩
    · obtain ⟨m, hm, hnode⟩ := h.only n c hc
      exact ⟨m, List.mem_cons_of_mem _ hm, hnode⟩
    · exact ⟨_, List.mem_cons_self, rfl⟩

/-! ## Bound pages cohere -/

theorem locate_trimmed {ω : Type} (g : Graph ω) (source : String) :
    g.locate (Text.trimmed source) = g.locate source := by
  unfold locate
  rw [Expression.trimmed_trimmed]

/-- The path of an expression that names a node of the data below the root leads there. -/
theorem walk_of_locate {ω : Type} {g : Graph ω} (hg : g.Grown) {source : String} {e : Expression}
    {id : Nat} (hread : Expression.read source = .ok e) (hcall : e.isCall = false)
    (hid : g.locate source = some id) (hroot : id ≠ root) (hdata : id ∉ g.computed) :
    g.walk root e.path.keys = some id := by
  unfold locate at hid
  simp only [Expression.read_trimmed hread, hcall, Bool.false_eq_true, if_false] at hid
  split at hid
  · exact absurd (Option.some.inj hid).symm hroot
  · exact (walk_resolve hg hid hdata).1

/-- A binding that is done renders, becomes an observer of the node that its expression names, and
gets a listener if it is two-way. -/
theorem observe_of_bind {node id : Nat} {source : String} {request : BindingRequest}
    {e : Expression} {run : Program σ → Run (Page σ) Value} {p₁ : Page σ}
    (hread : Expression.read (Text.trimmed source) = .ok e) (hcall : e.isCall = false)
    (hrender : render run ⟨node, request.target, e, request.scope⟩ p = .done () p₁)
    (hid : p₁.graph.locate (Text.trimmed source) = some id)
    (h : Page.bind run node source request p = .done () p') :
    ∃ graph, p₁.graph.observe id (.binding ⟨node, request.target, e, request.scope⟩) = .ok graph ∧
      (request.twoWay = false ∧ p' = { p₁ with graph } ∨ request.twoWay = true ∧ ∃ surface,
        p₁.surface.listen node (request.event.getD Event.default)
            (.writeBack request.target e request.scope) = .ok surface ∧
          p' = { p₁ with graph, surface }) := by
  unfold Page.bind at h
  dsimp only at h
  rw [hread] at h
  have h : (render run ⟨node, request.target, e, request.scope⟩ >>= _) p = .done () p' := h
  rw [bind_of_done hrender, if_neg (by simp [hcall])] at h
  obtain ⟨found, p₂, hlook, hrest⟩ := bind_eq_done h
  obtain ⟨hfound, rfl⟩ := look_eq_done hlook
  rw [← hfound, hid] at hrest
  obtain ⟨_, p₃, hobserve, hlast⟩ := bind_eq_done hrest
  obtain ⟨graph, hgraph, rfl⟩ := edit_eq_done hobserve
  refine ⟨graph, Page.settle_eq_ok hgraph, ?_⟩
  split at hlast
  · next hway =>
    obtain ⟨surface, hsurface, rfl⟩ := edit_eq_done hlast
    exact .inr ⟨hway, surface, Surface.settle_eq_ok hsurface, rfl⟩
  · next hway =>
    cases hlast
    exact .inl ⟨Bool.eq_false_iff.mpr hway, rfl⟩

theorem Coheres.bind (h : Coheres made p) {node id : Nat} {source : String}
    {request : BindingRequest} {e : Expression} {run : Program σ → Run (Page σ) Value}
    (hnode : p.surface.IsElement node) (hnew : ∀ m ∈ made, m.node ≠ node)
    (hname : ∀ name, request.target = .attributeNamed name → Text.lowered name = name)
    (hscope : request.scope = .page) (hread : Expression.read source = .ok e)
    (hcall : e.isCall = false) (hplain : Path.isPlain e.path)
    (hid : p.graph.locate source = some id) (hroot : id ≠ root) (hdata : id ∉ p.graph.computed)
    (hrun : Page.bind run node source request p = .done () p') :
    Coheres (⟨node, source, request.target⟩ :: made) p' := by
  have hnamed := h.wired.named
  have hbinds : Binds p id ⟨node, request.target, e, request.scope⟩ :=
    { read := ⟨source, hread⟩, call := hcall, scope := hscope, plain := hplain, name := hname
      element := hnode
      walk := walk_of_locate hnamed.keyed.grown hread hcall hid hroot hdata }
  -- the element is written, which keeps what the others show
  obtain ⟨surface, hrender, hsound, hshows, hothers⟩ := render_eq hnamed hbinds run
  have hrendered : Coheres made { p with surface } := h.keepsOthers hnew hsound hothers
  have hid : p.graph.locate (Text.trimmed source) = some id := (locate_trimmed _ _).trans hid
  -- then it is bound, and may get a listener
  obtain ⟨graph, hgraph, hlast⟩ :=
    observe_of_bind (Expression.read_trimmed hread) hcall hrender hid hrun
  have hbound := hrendered.observe (hbinds.keeps (.refl _) hothers.element) hshows hread hnew hgraph
  rcases hlast with ⟨-, rfl⟩ | ⟨-, surface', hl, rfl⟩
  · exact hbound
  · exact hbound.listen hl

/-- The host sets a value, and watchers may set others on the way. -/
theorem Coheres.set (h : Coheres made p) {depth : Nat} {source : String} {x : Value}
    (hresolves : Policy.resolving p (.set source x))
    (hobeys : Page.set (interpretUnder .resolving depth) depth source x p ≠ .exhausted)
    (hrun : Page.set (interpret depth) depth source x p = .done () p') : Coheres made p' := by
  have hsame : Tracks (Change .below) (Page.set (interpretUnder .resolving depth) depth source x)
      (Page.set (interpret depth) depth source x) p :=
    tracks_set (tracks_interpretUnder_interpret Policy.resolving_enforces depth)
      (Nat.le_refl depth) fun e _ hfree => ⟨List.cons_ne_nil _ _, hfree⟩
  -- all sets on the way resolve, so the run under the policy is the run itself
  have hunder : Page.set (interpretUnder .resolving depth) depth source x p = .done () p' :=
    (hsame.eq_of_ne_exhausted hobeys).trans hrun
  exact h.cleans (cleans_set (fun program hsets p v p' hp hrun => cleans_program hsets hp hrun)
    (tracks_interpretUnder_self Policy.resolving_enforces depth) h.wired hresolves hunder)

theorem Coheres.start (hnamed : Named p)
    (hwatchers : ∀ n, ∀ o ∈ p.graph.observers n, ∃ w, o = .watcher w ∧
      ∀ current previous, (w current previous).SetsOnly) : Coheres [] p := by
  have hnone : ∀ n b, .binding b ∉ p.graph.observers n := by
    intro n b hb
    obtain ⟨w, hw, -⟩ := hwatchers n _ hb
    cases hw
  refine ⟨⟨hnamed, ?_, ?_, ?_⟩, ?_, nofun, ?_⟩
  · exact fun n b hb => absurd hb (hnone n b)
  · exact fun n m b c hb => absurd hb (hnone n b)
  · intro n w hw
    obtain ⟨w', heq, hsets⟩ := hwatchers n _ hw
    cases heq
    exact hsets
  · exact fun n b hb => absurd hb (hnone n b)
  · exact fun n b hb => absurd hb (hnone n b)

/-- Every bound page coheres. -/
theorem coheres_of_bound (h : Bound options made p) : Coheres made p := by
  induction h with
  | start h hwatchers => exact .start (.of_reached h) hwatchers
  | watch _ hsets hobserve ih => exact ih.watch hsets hobserve
  | bind _ hnode hnew hname hscope hread hcall hplain hid hroot hdata hrun ih =>
    exact ih.bind hnode hnew hname hscope hread hcall hplain hid hroot hdata hrun
  | set _ hresolves hobeys hrun ih => exact ih.set hresolves hobeys hrun

/-- On a page that is bound step by step, every element that was bound shows the value that its
expression has at that time, rendered. -/
theorem bound_shows (h : Bound options made p) {m : Bond} (hm : m ∈ made) :
    ∃ v, (∀ depth, evaluate (interpret depth) m.source .page p = .done v p) ∧
      m.target.Holds p.surface m.node v.render := by
  have hcoheres := coheres_of_bound h
  obtain ⟨n, b, hb, hnode, htarget, hread⟩ := hcoheres.observed m hm
  have hbinds := hcoheres.wired.binding n b hb
  have hshows := hcoheres.settled n b hb id
  refine ⟨p.valueAt b.expression.path, fun depth => ?_, ?_⟩
  · rw [evaluate, hread]
    exact evaluate_of_walk hcoheres.wired.named hread hbinds.call hbinds.walk (interpret depth)
  · rw [← hnode, ← htarget]
    exact Target.Shows.holds hcoheres.wired.named.surface hshows

/-- Two fields, of which a watcher copies the first into the second. -/
def copyOptions : Options Unit where
  data := .record [("a", .null), ("b", .null)]
  methods := []
  computed := []
  watches := [("a", fun current _ => .tell (.set "b" current) fun _ => .done .null)]

/-- A document with one element. -/
def copySurface : Surface (Listener Unit) :=
  ⟨((Forest.empty.push ⟨.document, []⟩).push ⟨.element "p" [], []⟩).attach 0 1⟩

def copyPage : Page Unit := assemble copyOptions [] [] copySurface ()

/-- The page after the second field has been bound to the element. -/
def copyBound : Page Unit :=
  (bind (interpret 1) 1 "b" ⟨.content, none, false, .page⟩ copyPage).stateD copyPage

/-- The page after the first field has been set. -/
def copySet : Page Unit := (set (interpret 3) 3 "a" (.text "x") copyBound).stateD copyBound

theorem reached_copySurface : copySurface.Reached := by
  have hchars : "p".toList = ['p'] := rfl
  have hname : Markup.IsName "p" :=
    ⟨by rw [hchars]; nofun, by rw [hchars, List.forall_mem_singleton]; decide, by decide⟩
  have htag : Markup.IsTag "p" := by
    refine ⟨hname, ?_⟩
    rw [hchars]
    rintro c ⟨⟩
    decide
  have hp : Markup.Sound Markup.Spread (.element "p" [] []) :=
    .element htag ⟨nofun, List.nodup_nil⟩ (by decide) trivial nofun
  have hread : Markup.read (Markup.write [.element "p" [] []]) = .ok [.element "p" [] []] :=
    Markup.read_write (by simpa using hp) ⟨nofun, trivial⟩
  have hload : (Surface.blank.apply (.load (Markup.write [.element "p" [] []]))).2
      = copySurface := by
    simp only [Surface.apply, Surface.load, Surface.parseFragment, hread]
    rfl
  rw [← hload]
  exact .step .blank (.edit _ _)

/-- Setting the first field makes the element show what the watcher sets on the way: the text that
the first field was set to. -/
theorem bound_shows_copy :
    ∃ v, (∀ depth, evaluate (interpret depth) "b" .page copySet = .done v copySet) ∧
      copySet.surface.textContent 1 = .ok v.render ∧ v.render = "x" := by
  have hstart : Bound copyOptions [] copyPage := by
    refine .assemble (fun w hw current previous => ?_) [] [] reached_copySurface ()
    cases List.mem_singleton.mp hw
    exact .set (.done .null) fun _ => rfl
  have hread : Expression.read "b" = .ok ⟨"b", "b", [], false⟩ :=
    eq_ok_of_toOption (by decide +kernel)
  have hid : copyPage.graph.locate "b" = some 2 := by decide +kernel
  have hdata : 2 ∉ copyPage.graph.computed := by decide +kernel
  have hbind : bind (interpret 1) 1 "b" ⟨.content, none, false, .page⟩ copyPage
      = .done () copyBound := Outcome.eq_done (by decide +kernel) copyPage
  have hbound : Bound copyOptions [⟨1, "b", .content⟩] copyBound :=
    hstart.bind ⟨"p", [], rfl⟩ (fun _ hm => absurd hm List.not_mem_nil) (fun _ h => by cases h) rfl
      hread rfl (by decide) hid (by decide) hdata hbind
  have hresolves : Policy.resolving copyBound (.set "a" (.text "x")) := by decide +kernel
  have hobeys : set (interpretUnder .resolving 3) 3 "a" (.text "x") copyBound ≠ .exhausted :=
    Outcome.ne_exhausted (by decide +kernel)
  have hset : set (interpret 3) 3 "a" (.text "x") copyBound = .done () copySet :=
    Outcome.eq_done (by decide +kernel) copyBound
  have hcopied : Bound copyOptions [⟨1, "b", .content⟩] copySet := hbound.set hresolves hobeys hset
  obtain ⟨v, hvalue, hshows⟩ := bound_shows hcopied List.mem_cons_self
  have hshows : copySet.surface.textContent 1 = .ok v.render := hshows
  have htext : copySet.surface.textContent 1 = .ok "x" := eq_ok_of_toOption (by decide +kernel)
  exact ⟨v, hvalue, hshows, Except.ok.inj (hshows.symm.trans htext)⟩

end Page

end ReactiveView
