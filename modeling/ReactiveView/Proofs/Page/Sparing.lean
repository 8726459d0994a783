import ReactiveView.Proofs.Page.Bound
import ReactiveView.Proofs.Page.Topology
/-!
# Observers that spare the page

Observers and computed properties may do anything to a page while it goes through a cascade. They
spare it if they neither write to the data nor register observers: then all that can come to the
graph are new nodes, for which an observer may ask. They leave it if they do not even ask for these.
Both are said of a page by what a call does, on whatever page it happens that has the same observers
and programs.

Bindings never do more than this by themselves, nor do programs that only ask; but what they read may
be a computed property, and what they invoke a method. So all that a page has of programs must be of
that sort. The induction is on the depth: a program at a depth sets off programs at smaller ones.

Results:
* `ends_evaluateExpression`, `ends_callBinding`: reading and rendering keep what the programs keep
  that they set off.
* `ends_grow`: a request for nodes spares the page.
* `Gentle.spares`, `Gentle.leaves`: how a page is served by bindings and programs that only ask.
-/
namespace ReactiveView

namespace Graph

variable {ω : Type} {g g' : Graph ω}

/-- The value that the last write to a node replaced. -/
def previous? (g : Graph ω) (i : Nat) : Option Value := (g.property? i).bind (·.previous)

theorem previous?_pushChild (p : Nat) (key : String) (source : Source) (i : Nat) :
    (g.pushChild p key source).previous? i = g.previous? i := by
  rw [previous?, previous?, property?_pushChild]
  split
  · next hi =>
    rw [hi, property?, Forest.content?, Forest.node?_eq_none_of_le (Nat.le_refl _)]
    rfl
  · rfl

end Graph

/-- A command that only asks, or edits the surface. -/
def Command.isQuestion : Command → Bool
  | .surface _ | .valueOf _ | .lookup _ | .invoke _ | .evaluate .. => true
  | _ => false

/-- Programs that ask, edit the surface and listen to it, and get along with failures. They may ask
for nodes if `growing`. -/
inductive Program.AsksOnly {σ : Type} (growing : Prop) : Program σ → Prop
  | done (v : Value) : AsksOnly growing (.done v)
  | fail (e : Error) : AsksOnly growing (.fail e)
  | look {next : View σ → Program σ} (h : ∀ view, AsksOnly growing (next view)) :
      AsksOnly growing (.look next)
  | update {next : Program σ} (change : σ → σ) (h : AsksOnly growing next) :
      AsksOnly growing (.update change next)
  | ask {c : Command} {next : Except Error c.Reply → Program σ} (hc : c.isQuestion)
      (h : ∀ r, AsksOnly growing (next r)) : AsksOnly growing (.act c next)
  | grow {source : String} {next : Except Error Nat → Program σ} (hgrow : growing)
      (h : ∀ r, AsksOnly growing (next r)) : AsksOnly growing (.act (.grow source) next)
  | listen {node : Nat} {event : String} {listener : Event → Program σ}
      {next : Except Error Unit → Program σ} (h : ∀ r, AsksOnly growing (next r)) :
      AsksOnly growing (.listen node event listener next)

namespace Page

open ReactiveView.Graph Relation Run

variable {σ : Type} {p p' q q' : Page σ}

/-! ## Pages that are spared -/

/-- Nothing was written, neither to the data nor to the recorded values, and no observer was
registered. So nothing can have come to the page but new nodes, and what is on the surface. -/
structure Spares (q q' : Page σ) : Prop where
  data : q'.data = q.data
  observers : ∀ i, q'.graph.observers i = q.graph.observers i
  previous : ∀ i, q'.graph.previous? i = q.graph.previous? i
  links : Extends q.graph q'.graph

/-- Nothing was written to the data, and the graph was left alone. -/
structure Leaves (q q' : Page σ) : Prop where
  data : q'.data = q.data
  graph : q'.graph = q.graph

/-- A way of dealing with a page that spares it, and goes on doing so. -/
structure Mild (R : Page σ → Page σ → Prop) : Prop where
  refl : ∀ q, R q q
  trans : ∀ q₁ q₂ q₃, R q₁ q₂ → R q₂ q₃ → R q₁ q₃
  spares : ∀ q q', R q q' → Spares q q'

theorem mild_spares : Mild (Spares : Page σ → Page σ → Prop) where
  refl q := ⟨rfl, fun _ => rfl, fun _ => rfl, (SameShape.refl q.graph).extends⟩
  trans _ _ _ h h' := ⟨h'.data.trans h.data, fun i => (h'.observers i).trans (h.observers i),
    fun i => (h'.previous i).trans (h.previous i), h.links.trans h'.links⟩
  spares _ _ h := h

theorem mild_leaves : Mild (Leaves : Page σ → Page σ → Prop) where
  refl _ := ⟨rfl, rfl⟩
  trans _ _ _ h h' := ⟨h'.data.trans h.data, h'.graph.trans h.graph⟩
  spares q _ h := by
    refine ⟨h.data, fun i => by rw [h.graph], fun i => by rw [h.graph], ?_⟩
    rw [h.graph]
    exact (SameShape.refl q.graph).extends

/-- A page with the same observers and the same programs, whose links are those of a forest. -/
structure Kin (p q : Page σ) : Prop where
  sound : q.graph.Sound
  observers : ∀ i, q.graph.observers i = p.graph.observers i
  computed : q.computed = p.computed
  methods : q.methods = p.methods
  registry : q.registry = p.registry
  live : q.live = p.live

/-- The observers and the computed properties of a page do no more than `R`, on whatever page they
run that has the same ones. One that uses up its depth is accepted if `exhausted`. -/
structure Serves (R : Page σ → Page σ → Prop) (exhausted : Prop) (depth : Nat) (p : Page σ) :
    Prop where
  observer : ∀ q, Kin p q → ∀ i, ∀ o ∈ p.graph.observers i, ∀ current previous,
    (callObserver (interpret depth) o current previous q).Ends (R q) (R q) exhausted
  computed : ∀ q, Kin p q → ∀ name program, p.computed name = some program →
    (interpret depth program q).Ends (R q) (R q) exhausted

/-- No change of a page makes its graph unsound. -/
theorem Change.sound {rules : Rules σ} (h : Change rules q q') (hq : q.graph.Sound) :
    q'.graph.Sound := by
  cases h with
  | previous h => exact (sameShape_setPrevious h).sound hq
  | observe h => exact (sameShape_observe h).sound hq
  | growRoot _ h => exact sound_grow hq h
  | growData _ _ _ _ h => exact sound_grow hq h
  | graph _ => exact sound_apply hq _
  | _ => exact hq

theorem Reached.sound {policy : Policy σ} {options : Options σ} (h : Reached policy options p) :
    p.graph.Sound := by
  have henforces : policy.Enforces .all := fun p c _ =>
    Command.allowed (fun _ _ _ => trivial) p (fun _ _ => trivial) fun _ _ => trivial
  refine h.keeps henforces (fun registry scopes surface host _ => ?_)
    (fun _ _ hchange hp => hchange.sound hp) fun _ hp => hp
  refine assemble_graph (J := Sound) (grown_ofData options.data).sound (fun g name _ hg => ?_)
    (fun g g' id w _ ho hg => (sameShape_observe ho).sound hg) registry scopes surface host
  exact sound_apply hg (.insertComputed name)

/-- What an author supplies stays the same all along. -/
theorem Change.supplied {rules : Rules σ} (h : Change rules q q') :
    q'.computed = q.computed ∧ q'.methods = q.methods ∧ q'.registry = q.registry ∧
      q'.live = q.live := by
  cases h <;> exact ⟨rfl, rfl, rfl, rfl⟩

theorem Kin.changes {rules : Rules σ} (hq : Kin p q) (hsteps : ReflTransGen (Change rules) q q')
    (hobservers : ∀ i, q'.graph.observers i = q.graph.observers i) : Kin p q' := by
  have hkept : q'.graph.Sound ∧ q'.computed = p.computed ∧ q'.methods = p.methods ∧
      q'.registry = p.registry ∧ q'.live = p.live := by
    refine keeps_of_steps (I := fun q => q.graph.Sound ∧ q.computed = p.computed ∧
      q.methods = p.methods ∧ q.registry = p.registry ∧ q.live = p.live)
      (fun s s' hchange hs => ⟨hchange.sound hs.1, ?_⟩)
      ⟨hq.sound, hq.computed, hq.methods, hq.registry, hq.live⟩ hsteps
    obtain ⟨hcomputed, hmethods, hregistry, hlive⟩ := hchange.supplied
    rw [hcomputed, hmethods, hregistry, hlive]
    exact hs.2
  obtain ⟨hsound, hcomputed, hmethods, hregistry, hlive⟩ := hkept
  exact ⟨hsound, fun i => (hobservers i).trans (hq.observers i), hcomputed, hmethods, hregistry,
    hlive⟩

theorem Serves.mono {R R' : Page σ → Page σ → Prop} {E E' : Prop} {depth : Nat}
    (h : Serves R E depth p) (hR : ∀ q q', R q q' → R' q q') (hE : E → E') :
    Serves R' E' depth p where
  observer q hq i o ho current previous :=
    (h.observer q hq i o ho current previous).imp (hR q) (hR q) hE
  computed q hq name program hname := (h.computed q hq name program hname).imp (hR q) (hR q) hE

/-- What a run does to a page in the way of `R` it does to the page before. -/
theorem ends_mild {R : Page σ → Page σ → Prop} {E : Prop} {α : Type} {y : Run (Page σ) α}
    (hR : Mild R) {b : Page σ} (hb : R b q) (hq : Kin p q)
    (htracks : Tracks (Change .all) y y q) (h : (y q).Ends (R q) (R q) E) :
    (y q).Ends (fun q' => R b q' ∧ Kin p q') (fun q' => R b q' ∧ Kin p q') E := by
  have hstep : ∀ q', R q q' → ReflTransGen (Change .all) q q' → R b q' ∧ Kin p q' := by
    intro q' hqq' hsteps
    exact ⟨hR.trans _ _ _ hb hqq', hq.changes hsteps (hR.spares _ _ hqq').observers⟩
  cases hy : y q with
  | done a q' =>
    rw [hy] at h
    exact hstep q' h (htracks.done hy).2
  | failed e q' =>
    rw [hy] at h
    exact hstep q' h (htracks.failed hy).2
  | exhausted =>
    rw [hy] at h
    exact h

section

variable {R : Page σ → Page σ → Prop} {E : Prop} {depth : Nat} {b : Page σ}

/-- The observers of a page go on in the way in which they serve it. -/
theorem Serves.ends_observer (hR : Mild R) (hs : Serves R E depth p) (hb : R b q) (hq : Kin p q)
    {i : Nat} {o : Observer σ} (ho : o ∈ p.graph.observers i) (current previous : Value) :
    (callObserver (interpret depth) o current previous q).Ends (fun q' => R b q' ∧ Kin p q')
      (fun q' => R b q' ∧ Kin p q') E :=
  ends_mild hR hb hq (tracks_callObserver (tracks_interpret (Nat.le_refl depth)) o current previous)
    (hs.observer q hq i o ho current previous)

/-- So do its computed properties. -/
theorem Serves.ends_computed (hR : Mild R) (hs : Serves R E depth p) (hb : R b q) (hq : Kin p q)
    {name : String} {program : Program σ} (hname : q.computed name = some program) :
    (interpret depth program q).Ends (fun q' => R b q' ∧ Kin p q') (fun q' => R b q' ∧ Kin p q')
      E :=
  ends_mild hR hb hq (tracks_interpret (Nat.le_refl depth) program q)
    (hs.computed q hq name program (hq.computed ▸ hname))

end

/-! ## Requests for nodes -/

/-- Growing makes new nodes, and nothing else. -/
theorem spares_grow {v : Value} {i : Nat} {base : Path} {graph : Graph (Observer σ)}
    (hq : q.graph.Sound) (h : q.graph.grow v i base = .ok graph) :
    Spares q { q with graph } := by
  have hkept : graph.Sound ∧ Spares q { q with graph } := by
    refine grow_keeps (I := fun g => g.Sound ∧ Spares q { q with graph := g })
      (fun g p key source hg hp _ => ?_) ⟨hq, mild_spares.refl q⟩ h
    obtain ⟨hsound, hspares⟩ := hg
    exact ⟨sound_pushChild hsound hp key source, rfl,
      fun j => (observers_pushChild p key source j).trans (hspares.observers j),
      fun j => (previous?_pushChild p key source j).trans (hspares.previous j),
      hspares.links.trans
        (extends_pushChild hsound.forest.linked (lt_of_contains hp) key source)⟩
  exact hkept.2

theorem ends_onGraph_grow (hq : q.graph.Sound) (v : Value) (i : Nat) (base : Path) :
    (onGraph (fun g => g.settle (g.grow v i base)) q).Ends (Spares q) (Spares q) False := by
  cases h : q.graph.grow v i base with
  | ok graph =>
    simp only [onGraph, Run.edit, h, Graph.settle]
    exact spares_grow hq h
  | error e =>
    simp only [onGraph, Run.edit, h, Graph.settle]
    exact mild_spares.refl q

/-- A request for nodes spares the page, whatever it names. -/
theorem ends_grow (hq : q.graph.Sound) (source : String) :
    (grow source q).Ends (Spares q) (Spares q) False := by
  have hcount : ∀ (v : Value) (i n : Nat) (base : Path),
      ((onGraph (fun g => g.settle (g.grow v i base)) >>= fun _ =>
        Run.look (fun p : Page σ => p.graph.size) >>= fun after => pure (after - n) :
        Run (Page σ) Nat) q).Ends (Spares q) (Spares q) False :=
    fun v i n base => ends_bind (ends_onGraph_grow hq v i base) fun _ _ hq' => hq'
  cases hid : q.graph.locate source with
  | none =>
    simp only [grow, bind_eq, andThen, look, hid]
    exact mild_spares.refl q
  | some id =>
    cases hproperty : q.graph.property id with
    | error e =>
      simp only [grow, bind_eq, andThen, look, hid, hproperty]
      exact mild_spares.refl q
    | ok property =>
      have hanswer : (ofExcept (.ok property) : Run (Page σ) _) q = .done property q := rfl
      simp only [grow, bind_eq, andThen, look, hid, hproperty, hanswer]
      cases property.source with
      | root => exact hcount q.data root _ []
      | data path =>
        dsimp only
        cases q.data.at? path with
        | none => exact mild_spares.refl q
        | some v => exact hcount v id _ path
      | computed name => exact mild_spares.refl q

/-! ## Reading -/

section

variable {I : Page σ → Prop} {E : Prop} {run : Program σ → Run (Page σ) Value}

/-- It does not matter to `I` what the surface, the plain data trees and the host state are. -/
def Blind (I : Page σ → Prop) : Prop :=
  ∀ q surface scopes host, I q → I { q with surface, scopes, host }

/-- The computed properties and methods of a page keep `I`. -/
def Answers (run : Program σ → Run (Page σ) Value) (I : Page σ → Prop) (exhausted : Prop) : Prop :=
  ∀ q, I q → ∀ name program, q.computed name = some program ∨ q.methods name = some program →
    (run program q).Ends I I exhausted

theorem ends_editSurface (hI : Blind I) (hq : I q) (e : Surface.Edit) :
    (editSurface e q).Ends I I E := by
  unfold editSurface onSurface
  exact ends_edit fun _ s _ => hI q s q.scopes q.host hq

theorem ends_writeTarget (hI : Blind I) (hq : I q) (node : Nat) (target : Target) (text : String) :
    (writeTarget node target text q).Ends I I E := by
  cases target with
  | content => exact ends_editSurface hI hq _
  | attributeNamed name => exact ends_editSurface hI hq _

theorem ends_valueOf (hrun : ∀ name program, q.computed name = some program →
      (run program q).Ends I I E) (hq : I q) (source : Source) :
    (valueOf run source q).Ends I I E := by
  cases source with
  | root => exact hq
  | data path => exact hq
  | computed name =>
    rw [valueOf, look_bind]
    cases hname : q.computed name with
    | none => exact hq
    | some program => exact hrun name program hname

theorem ends_lookup (hrun : Answers run I E) (hq : I q) (name : String) :
    (lookup run name q).Ends I I E := by
  rw [lookup, look_bind]
  cases q.data.field? name with
  | some v => exact hq
  | none =>
    show ((Run.look (fun q => q.computed name) >>= _ : Run (Page σ) (Option Value)) q).Ends I I E
    rw [look_bind]
    cases hname : q.computed name with
    | none => exact hq
    | some program => exact ends_bind (hrun q hq name program (.inl hname)) fun _ _ hq' => hq'

theorem ends_invoke (hrun : Answers run I E) (hq : I q) (name : String) :
    (invoke run name q).Ends I I E := by
  rw [invoke, look_bind]
  cases hname : q.methods name with
  | none => exact hq
  | some program => exact hrun q hq name program (.inr hname)

/-- What an expression sets off are computed properties and methods. -/
theorem ends_evaluateExpression (hI : Blind I) (hrun : Answers run I E) (hq : I q) (e : Expression)
    (scope : ScopeName) : (e.evaluate (names run scope) q).Ends I I E := by
  unfold Expression.evaluate
  split
  · split
    · cases scope with
      | page => exact ends_invoke hrun hq e.head
      | plain name => exact hI q q.surface _ q.host hq
    · exact hq
  · have hlookup : ((names run scope).lookup e.head q).Ends I I E := by
      cases scope with
      | page => exact ends_lookup hrun hq e.head
      | plain name => exact hI q q.surface _ q.host hq
    refine ends_bind hlookup fun v q' hq' => ?_
    cases v <;> exact hq'

theorem ends_callBinding (hI : Blind I) (hrun : Answers run I E) (hq : I q) (b : Binding)
    (current previous : Value) :
    (callObserver run (.binding b) current previous q).Ends I I E :=
  ends_bind (ends_evaluateExpression hI hrun hq b.expression b.scope) fun _ _ hq' =>
    ends_writeTarget hI hq' b.node b.target _

theorem ends_question (hI : Blind I) (hrun : Answers run I E) (hq : I q) {depth : Nat} {c : Command}
    (hc : c.isQuestion) : (perform run depth c q).Ends I I E := by
  cases c <;> try cases hc
  case surface e => exact ends_editSurface hI hq e
  case valueOf source =>
    exact ends_valueOf (fun name program hname => hrun q hq name program (.inl hname)) hq source
  case lookup name => exact ends_lookup hrun hq name
  case invoke name => exact ends_invoke hrun hq name
  case evaluate source scope =>
    show ((Run.ofExcept (Expression.read source) >>= _ : Run (Page σ) Value) q).Ends I I E
    cases Expression.read source with
    | error e => exact hq
    | ok e => exact ends_evaluateExpression hI hrun hq e scope

/-- A program that only asks keeps what the programs keep that it sets off. -/
theorem ends_exec {growing : Prop} (hI : Blind I)
    (hgrow : growing → ∀ q, I q → ∀ source, (grow source q).Ends I I E)
    (hrun : Answers run I E) {program : Program σ} (h : program.AsksOnly growing) (hq : I q)
    (depth : Nat) : (exec run depth program q).Ends I I E := by
  induction h generalizing q with
  | done v => exact hq
  | fail e => exact hq
  | look _ ih => exact ih _ hq
  | update change _ ih => exact ih (hI q q.surface q.scopes (change q.host) hq)
  | ask hc _ ih =>
    exact ends_bind (ends_attempt (ends_question hI hrun hq hc)) fun r _ hq' => ih r hq'
  | grow hgrowing _ ih =>
    exact ends_bind (ends_attempt (hgrow hgrowing q hq _)) fun r _ hq' => ih r hq'
  | listen _ ih =>
    refine ends_bind (ends_attempt (ends_edit fun _ s _ => ?_)) fun r _ hq' => ih r hq'
    exact hI q s q.scopes q.host hq

end

/-! ## Pages with programs that only ask -/

/-- A page whose observers are bindings and programs that only ask, and whose computed properties
and methods only ask. -/
structure Gentle (growing : Prop) (p : Page σ) : Prop where
  observer : ∀ i, ∀ o ∈ p.graph.observers i, (∃ b, o = .binding b) ∨
    ∃ w, o = .watcher w ∧ ∀ current previous, (w current previous).AsksOnly growing
  computed : ∀ name program, p.computed name = some program → program.AsksOnly growing
  methods : ∀ name program, p.methods name = some program → program.AsksOnly growing

/-- A page with computed properties or methods, which may set off each other without end. -/
def HasPrograms (p : Page σ) : Prop := ∃ name, (p.computed name).isSome ∨ (p.methods name).isSome

/-- A page is gentle from the start if what the author supplies only asks. -/
theorem Gentle.assemble {growing : Prop} {options : Options σ}
    (hcomputed : ∀ c ∈ options.computed, c.2.AsksOnly growing)
    (hmethods : ∀ m ∈ options.methods, m.2.AsksOnly growing)
    (hwatches : ∀ w ∈ options.watches, ∀ current previous, (w.2 current previous).AsksOnly growing)
    (registry : Registry σ) (scopes : Entries Value) (surface : Surface (Listener σ)) (host : σ) :
    Gentle growing (assemble options registry scopes surface host) where
  observer i o ho := by
    obtain ⟨w, hw, rfl⟩ := observers_assemble registry scopes surface host i o ho
    exact .inr ⟨w.2, rfl, hwatches w hw⟩
  computed _ _ hname := hcomputed _ (Value.mem_of_get? hname)
  methods _ _ hname := hmethods _ (Value.mem_of_get? hname)

theorem not_hasPrograms_assemble {options : Options σ} (hcomputed : options.computed = [])
    (hmethods : options.methods = []) (registry : Registry σ) (scopes : Entries Value)
    (surface : Surface (Listener σ)) (host : σ) :
    ¬HasPrograms (Page.assemble options registry scopes surface host) := by
  rintro ⟨name, hname | hname⟩
  · simp only [Page.assemble, hcomputed] at hname
    cases hname
  · simp only [Page.assemble, hmethods] at hname
    cases hname

section

variable {R : Page σ → Page σ → Prop} {growing : Prop}

/-- A gentle page is served in any mild way that includes what bindings do and, where nodes may be
asked for, what growing does. -/
theorem Gentle.serves (hp : Gentle growing p) (hR : Mild R)
    (hsame : ∀ q q' : Page σ, q'.data = q.data → q'.graph = q.graph → R q q')
    (hgrow : growing → ∀ q : Page σ, q.graph.Sound → ∀ source,
      (grow source q).Ends (R q) (R q) False)
    (depth : Nat) : Serves R (depth = 0 ∨ HasPrograms p) depth p := by
  have hblind : ∀ b, Blind fun q => R b q ∧ Kin p q := fun b q surface scopes host hq =>
    ⟨hR.trans _ _ _ hq.1 (hsame q _ rfl rfl), hq.2.sound, hq.2.observers, hq.2.computed,
      hq.2.methods, hq.2.registry, hq.2.live⟩
  have hgrows : ∀ {E : Prop} b, growing → ∀ q, R b q ∧ Kin p q → ∀ source,
      (grow source q).Ends (fun q => R b q ∧ Kin p q) (fun q => R b q ∧ Kin p q) E := by
    intro E b hgrowing q hq source
    refine ends_mild hR hq.1 hq.2 (tracks_grow trivial source) ?_
    exact (hgrow hgrowing q hq.2.sound source).imp (fun _ h => h) (fun _ h => h) False.elim
  -- with programs to set off, nothing is said of exhaustion; without, none is set off
  have hanswers : ∀ b depth,
      Answers (interpret depth) (fun q => R b q ∧ Kin p q) (HasPrograms p) := by
    intro b depth
    induction depth with
    | zero =>
      rintro q hq name program (hname | hname)
      · exact ⟨name, .inl (by rw [← hq.2.computed, hname]; rfl)⟩
      · exact ⟨name, .inr (by rw [← hq.2.methods, hname]; rfl)⟩
    | succ depth ih =>
      rintro q hq name program (hname | hname)
      · exact ends_exec (hblind b) (hgrows b) ih (hp.computed name program (hq.2.computed ▸ hname))
          hq depth
      · exact ends_exec (hblind b) (hgrows b) ih (hp.methods name program (hq.2.methods ▸ hname))
          hq depth
  have hasks : ∀ b q, R b q ∧ Kin p q → ∀ program, program.AsksOnly growing →
      (interpret depth program q).Ends (fun q => R b q ∧ Kin p q) (fun q => R b q ∧ Kin p q)
        (depth = 0 ∨ HasPrograms p) := by
    intro b q hq program hprogram
    cases depth with
    | zero => exact .inl rfl
    | succ depth =>
      exact (ends_exec (hblind b) (hgrows b) (hanswers b depth) hprogram hq depth).imp
        (fun _ h => h) (fun _ h => h) .inr
  refine ⟨fun q hq i o ho current previous => ?_, fun q hq name program hname => ?_⟩
  · rcases hp.observer i o ho with ⟨b, rfl⟩ | ⟨w, rfl, hw⟩
    · exact (ends_callBinding (hblind q) (hanswers q depth) ⟨hR.refl q, hq⟩ b current previous).imp
        (fun _ h => h.1) (fun _ h => h.1) .inr
    · exact ends_bind_pure ((hasks q q ⟨hR.refl q, hq⟩ _ (hw current previous)).imp
        (fun _ h => h.1) (fun _ h => h.1) fun h => h) ()
  · exact (hasks q q ⟨hR.refl q, hq⟩ program (hp.computed name program hname)).imp
      (fun _ h => h.1) (fun _ h => h.1) fun h => h

end

/-- Bindings and programs that only ask, be it for nodes, spare the page. -/
theorem Gentle.spares (hp : Gentle True p) (depth : Nat) :
    Serves Spares (depth = 0 ∨ HasPrograms p) depth p :=
  hp.serves mild_spares (fun q _ hdata hgraph => mild_leaves.spares q _ ⟨hdata, hgraph⟩)
    (fun _ _ hq source => ends_grow hq source) depth

/-- Bindings and programs that ask for no nodes leave the page as it is. -/
theorem Gentle.leaves (hp : Gentle False p) (depth : Nat) :
    Serves Leaves (depth = 0 ∨ HasPrograms p) depth p :=
  hp.serves mild_leaves (fun _ _ hdata hgraph => ⟨hdata, hgraph⟩) False.elim depth

end Page

end ReactiveView
