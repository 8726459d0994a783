import ReactiveView.Page.Interpreter
import ReactiveView.Proofs.Run.Tracks
import ReactiveView.Proofs.Surface.Sound
/-!
# What a run can do to a page

Whatever programs do, a page changes by a few kinds of single changes only: a step of the surface, a
write to the data, a recorded value, an observer, nodes for members of the data, an edit of the
graph by hand. Which writes and which edits by hand there may be, and whether there may be new nodes
for members, are the `Rules`.

The lemmas here go through every operation of a page once, and say of each that it makes changes of
these kinds only and does not depend on how much depth it is given, if the programs that it runs
are of that sort.

Results:
* `tracks_perform`: every command that the rules allow.
-/
namespace ReactiveView

open Relation Run

variable {σ : Type}

namespace Page

/-- Which writes to the data and which edits of the graph by hand there may be, and whether members
of the data may get nodes. -/
structure Rules (σ : Type) where
  write : Page σ → Path → Value → Prop
  graph : Graph.Edit → Prop
  grow : Prop := True

/-- A single change of a page under rules. -/
inductive Change (rules : Rules σ) : Page σ → Page σ → Prop
  | surface {p : Page σ} {s : Surface (Listener σ)} (h : Surface.Step p.surface s) :
      Change rules p { p with surface := s }
  | scopes (p : Page σ) (scopes : Entries Value) : Change rules p { p with scopes }
  | host (p : Page σ) (host : σ) : Change rules p { p with host }
  | write {p : Page σ} {path : Path} {x old data : Value} (hw : rules.write p path x)
      (h : p.data.set path x = .ok (old, data)) : Change rules p { p with data }
  | previous {p : Page σ} {id : Nat} {v : Value} {graph : Graph (Observer σ)}
      (h : p.graph.setPrevious id v = .ok graph) : Change rules p { p with graph }
  | observe {p : Page σ} {id : Nat} {o : Observer σ} {graph : Graph (Observer σ)}
      (h : p.graph.observe id o = .ok graph) : Change rules p { p with graph }
  | growRoot {p : Page σ} {graph : Graph (Observer σ)} (hgrow : rules.grow)
      (h : p.graph.grow p.data Graph.root [] = .ok graph) : Change rules p { p with graph }
  | growData {p : Page σ} {id : Nat} {property : Property (Observer σ)} {path : Path} {v : Value}
      {graph : Graph (Observer σ)} (hgrow : rules.grow) (hp : p.graph.property? id = some property)
      (hs : property.source = .data path) (hv : p.data.at? path = some v)
      (h : p.graph.grow v id path = .ok graph) : Change rules p { p with graph }
  | graph (p : Page σ) {e : Graph.Edit} (he : rules.graph e) :
      Change rules p { p with graph := (p.graph.apply e).2 }

/-- A listener that writes back what the rules allow, whatever the text will be. -/
def Listener.Allowed (rules : Rules σ) : Listener σ → Prop
  | .writeBack _ e .page => ∀ (p : Page σ) (t : String), p.isReadOnly e.path = false →
    rules.write p e.path (.text t)
  | .writeBack _ _ (.plain _) => True
  | .script _ => True

/-- A command whose own writes and edits the rules allow. What the programs do that it sets off is
up to them. -/
def Command.Allowed (rules : Rules σ) (p : Page σ) : Command → Prop
  | .graph e => rules.graph e
  | .write path x => rules.write p path x
  | .assign path x => p.isReadOnly path = false → rules.write p path x
  | .set source x => ∀ e, Expression.read source = .ok e → p.isReadOnly e.path = false →
    rules.write p e.path x
  | .dispatch node event _ => ∀ ls, p.surface.listeners node event = .ok ls →
    ∀ l ∈ ls, Listener.Allowed rules l
  | .grow _ => rules.grow
  | _ => True

variable {rules : Rules σ} {p : Page σ}

/-! ## Single edits -/

theorem tracks_askSurface {α : Type} (f : Surface (Listener σ) → Except Error α) :
    Tracks (Change rules) (askSurface f) (askSurface f) p :=
  tracks_look_bind (tracks_ofExcept _)

theorem askSurface_eq_done {α : Type} {f : Surface (Listener σ) → Except Error α} {a : α}
    {p' : Page σ} (h : askSurface f p = .done a p') : f p.surface = .ok a ∧ p' = p := by
  have h : Run.ofExcept (f p.surface) p = .done a p' := h
  exact ofExcept_eq_done h

theorem editSurface_eq_done {e : Surface.Edit} {r : e.Reply} {p' : Page σ}
    (h : editSurface e p = .done r p') :
    (p.surface.apply e).1 = .ok r ∧ p' = { p with surface := (p.surface.apply e).2 } := by
  unfold editSurface onSurface at h
  obtain ⟨s, hs, rfl⟩ := edit_eq_done h
  exact ⟨congrArg Prod.fst hs, by rw [hs]⟩

theorem tracks_editSurface (e : Surface.Edit) :
    Tracks (Change rules) (editSurface e) (editSurface e) p := by
  unfold editSurface onSurface
  refine tracks_edit fun r s h => .single ?_
  have : s = (p.surface.apply e).2 := (congrArg Prod.snd h).symm
  rw [this]
  exact .surface (.edit p.surface e)

theorem tracks_listen (node : Nat) (event : String) (l : Listener σ) :
    Tracks (Change rules) (onSurface fun s => s.settle (s.listen node event l))
      (onSurface fun s => s.settle (s.listen node event l)) p := by
  refine tracks_edit fun r s h => ?_
  cases hl : p.surface.listen node event l with
  | ok s' =>
    rw [hl] at h
    cases h
    exact .single (.surface (.listen hl))
  | error e =>
    rw [hl] at h
    cases h
    exact .refl

/-- An edit of the graph that may refuse, and whose effect is a single change. -/
theorem tracks_settle {f : Graph (Observer σ) → Except Error (Graph (Observer σ))}
    (h : ∀ graph, f p.graph = .ok graph → Change rules p { p with graph }) :
    Tracks (Change rules) (onGraph fun g => g.settle (f g)) (onGraph fun g => g.settle (f g)) p := by
  refine tracks_edit fun r g hg => ?_
  cases hf : f p.graph with
  | ok g' =>
    rw [hf] at hg
    cases hg
    exact .single (h _ hf)
  | error e =>
    rw [hf] at hg
    cases hg
    exact .refl

theorem tracks_editGraph {e : Graph.Edit} (he : rules.graph e) :
    Tracks (Change rules) (onGraph fun g => g.apply e) (onGraph fun g => g.apply e) p := by
  unfold onGraph
  refine tracks_edit fun r g h => .single ?_
  have : g = (p.graph.apply e).2 := (congrArg Prod.snd h).symm
  rw [this]
  exact .graph p he

theorem tracks_observe (id : Nat) (o : Observer σ) :
    Tracks (Change rules) (onGraph fun g => g.settle (g.observe id o))
      (onGraph fun g => g.settle (g.observe id o)) p := tracks_settle fun _ => .observe

theorem tracks_plain_assign {path : Path} {x v : Value} :
    Tracks (fun _ _ => True) (Scope.plain.assign path x) (Scope.plain.assign path x) v := by
  simp only [Scope.plain]
  refine tracks_edit fun _ _ _ => ?_
  exact .single trivial

/-- A run on a plain data tree of the page. -/
theorem tracks_onPlain {α : Type} (name : String) {x : Run Value α}
    (h : ∀ v, Tracks (fun _ _ => True) x x v) :
    Tracks (Change rules)
      (x.onPart (fun p => (p.scopes.get? name).getD .null)
        fun v p => { p with scopes := p.scopes.modify (fun _ => v) name })
      (x.onPart (fun p => (p.scopes.get? name).getD .null)
        fun v p => { p with scopes := p.scopes.modify (fun _ => v) name }) p := by
  refine Tracks.onPart (h _) ?_
  exact fun v _ => .single (.scopes p (p.scopes.modify (fun _ => v) name))

theorem tracks_writeTarget (node : Nat) (target : Target) (text : String) :
    Tracks (Change rules) (writeTarget node target text) (writeTarget node target text) p := by
  cases target with
  | content => exact tracks_editSurface _
  | attributeNamed name => exact tracks_editSurface _

theorem tracks_grow (hgrow : rules.grow) (source : String) :
    Tracks (Change rules) (grow source) (grow source) p := by
  unfold grow
  dsimp only
  refine tracks_look_bind ?_
  split
  · exact tracks_fail _
  · next id _ =>
    refine tracks_look_bind (tracks_ofExcept_bind fun property hp => ?_)
    refine tracks_look_bind (tracks_look_bind ?_)
    have hp : p.graph.property? id = some property := Graph.property_eq_ok.mp hp
    have hcount : ∀ (before : Nat) (p' : Page σ), Tracks (Change rules)
        (Run.look (fun p : Page σ => p.graph.size) >>= fun after => pure (after - before))
        (Run.look (fun p : Page σ => p.graph.size) >>= fun after => pure (after - before)) p' :=
      fun _ _ => tracks_look_bind (tracks_pure _)
    split
    · exact hcount _ p
    · exact (tracks_settle fun _ => .growRoot hgrow).bind fun _ _ _ _ => hcount _ _
    · next path hs =>
      split
      · exact hcount _ p
      · next v hv =>
        exact (tracks_settle fun _ => .growData hgrow hp hs hv).bind fun _ _ _ _ => hcount _ _

theorem tracks_readTarget (node : Nat) (target : Target) :
    Tracks (Change rules) (readTarget node target) (readTarget node target) p := by
  cases target with
  | content => exact tracks_askSurface fun s => s.textContent node
  | attributeNamed name => exact (tracks_askSurface _).bind fun _ _ _ _ => tracks_pure _

theorem tracks_appendMarkup (parent : Nat) (source : String) :
    Tracks (Change rules) (appendMarkup parent source) (appendMarkup parent source) p := by
  refine (tracks_editSurface (.fragment source)).bind fun tops p' _ _ => ?_
  refine Tracks.bind ?_ fun _ _ _ _ => tracks_pure _
  exact tracks_forM fun top _ _ => tracks_editSurface _

theorem tracks_appendCopies (parent : Nat) (template : List Fragment) (item : String)
    (accessors : List (List Char)) :
    Tracks (Change rules) (appendCopies parent template item accessors)
      (appendCopies parent template item accessors) p := by
  induction accessors generalizing p with
  | nil => exact tracks_pure _
  | cons accessor rest ih =>
    refine tracks_look_bind ?_
    refine (tracks_appendMarkup _ _).bind fun tops p' _ _ => ?_
    exact ih.bind fun _ _ _ _ => tracks_pure _

/-! ## Reading -/

section

variable {run run' : Program σ → Run (Page σ) Value}
  (hrun : ∀ program p, Tracks (Change rules) (run program) (run' program) p)

include hrun

theorem tracks_lookup (name : String) :
    Tracks (Change rules) (lookup run name) (lookup run' name) p := by
  refine tracks_look_bind ?_
  split
  · exact tracks_pure _
  · refine tracks_look_bind ?_
    split
    · exact (hrun _ p).bind fun _ _ _ _ => tracks_pure _
    · exact tracks_pure _

theorem tracks_invoke (name : String) :
    Tracks (Change rules) (invoke run name) (invoke run' name) p := by
  refine tracks_look_bind ?_
  split
  · exact hrun _ p
  · exact tracks_fail _

theorem tracks_names_lookup (scope : ScopeName) (name : String) :
    Tracks (Change rules) ((names run scope).lookup name) ((names run' scope).lookup name) p := by
  cases scope with
  | page => exact tracks_lookup hrun name
  | plain scope =>
    exact tracks_onPlain scope fun v => tracks_look (s := v) fun data => data.field? name

theorem tracks_names_invoke (scope : ScopeName) (name : String) :
    Tracks (Change rules) ((names run scope).invoke name) ((names run' scope).invoke name) p := by
  cases scope with
  | page => exact tracks_invoke hrun name
  | plain scope =>
    exact tracks_onPlain scope fun v => tracks_fail (s := v) (.notCallable name)

theorem tracks_evaluateExpression (e : Expression) (scope : ScopeName) :
    Tracks (Change rules) (e.evaluate (names run scope)) (e.evaluate (names run' scope)) p := by
  unfold Expression.evaluate
  split
  · split
    · exact tracks_names_invoke hrun scope e.head
    · exact tracks_fail _
  · refine (tracks_names_lookup hrun scope e.head).bind fun v p' _ _ => ?_
    split <;> exact tracks_pure _

theorem tracks_evaluate (source : String) (scope : ScopeName) :
    Tracks (Change rules) (evaluate run source scope) (evaluate run' source scope) p :=
  tracks_ofExcept_bind fun e _ => tracks_evaluateExpression hrun e scope

theorem tracks_valueOf (source : Source) :
    Tracks (Change rules) (valueOf run source) (valueOf run' source) p := by
  cases source with
  | root => exact tracks_look _
  | data path => exact tracks_look _
  | computed name =>
    refine tracks_look_bind ?_
    split
    · exact hrun _ p
    · exact tracks_pure _

/-! ## Cascades -/

theorem tracks_render (b : Binding) : Tracks (Change rules) (render run b) (render run' b) p :=
  (tracks_evaluateExpression hrun b.expression b.scope).bind fun v _ _ _ =>
    tracks_writeTarget b.node b.target v.render

theorem tracks_callObserver (o : Observer σ) (current previous : Value) :
    Tracks (Change rules) (callObserver run o current previous)
      (callObserver run' o current previous) p := by
  cases o with
  | binding b => exact tracks_render hrun b
  | watcher w => exact (hrun _ p).bind fun _ _ _ _ => tracks_pure _

theorem tracks_notify (id : Nat) :
    Tracks (Change rules) ((cascade run).notify id) ((cascade run').notify id) p := by
  refine tracks_look_bind (tracks_ofExcept_bind fun property _ => ?_)
  split
  · exact tracks_pure _
  · refine (tracks_valueOf hrun property.source).bind fun current p' _ _ => ?_
    exact tracks_forM fun o _ p' => tracks_callObserver hrun o current _

theorem tracks_notifyEvery :
    Tracks (Change rules) (cascade run).notifyEvery (cascade run').notifyEvery p :=
  tracks_look_bind (tracks_forM fun id _ _ => tracks_notify hrun id)

variable {depth depth' : Nat} (hd : depth ≤ depth')

include hd

theorem tracks_notifyBelow (id : Nat) :
    Tracks (Change rules) ((cascade run).notifyBelow depth id)
      ((cascade run').notifyBelow depth' id) p := by
  induction depth generalizing depth' id p with
  | zero => exact tracks_exhausted _
  | succ depth ih =>
    obtain ⟨d, rfl⟩ : ∃ d, depth' = d + 1 := ⟨depth' - 1, by omega⟩
    refine tracks_look_bind (tracks_ofExcept_bind fun children _ => ?_)
    refine tracks_forM fun child _ p' => (tracks_notify hrun child).bind fun _ p'' _ _ => ?_
    exact ih (by omega) child

theorem tracks_notifyAbove (id : Nat) :
    Tracks (Change rules) ((cascade run).notifyAbove depth id)
      ((cascade run').notifyAbove depth' id) p := by
  induction depth generalizing depth' id p with
  | zero => exact tracks_exhausted _
  | succ depth ih =>
    obtain ⟨d, rfl⟩ : ∃ d, depth' = d + 1 := ⟨depth' - 1, by omega⟩
    refine tracks_look_bind (tracks_ofExcept_bind fun parent _ => ?_)
    cases parent with
    | none => exact tracks_pure _
    | some a => exact (tracks_notify hrun a).bind fun _ _ _ _ => ih (by omega) a

theorem tracks_notifyAll (id : Nat) :
    Tracks (Change rules) ((cascade run).notifyAll depth id)
      ((cascade run').notifyAll depth' id) p :=
  (tracks_notifyBelow hrun hd id).bind fun _ _ _ _ =>
    (tracks_notify hrun id).bind fun _ _ _ _ => tracks_notifyAbove hrun hd id

theorem tracks_refresh (source : Option String) :
    Tracks (Change rules) (refresh run depth source) (refresh run' depth' source) p := by
  cases source with
  | none => exact tracks_notifyEvery hrun
  | some source =>
    refine tracks_look_bind ?_
    split
    · exact tracks_pure _
    · exact tracks_notifyAll hrun hd _

/-! ## Writing -/

theorem tracks_write {path : Path} {x : Value} (hw : rules.write p path x) :
    Tracks (Change rules) (write run depth path x) (write run' depth' path x) p := by
  refine Tracks.bind (tracks_edit fun r data h => ?_) fun replaced p' _ _ => ?_
  · cases hset : p.data.set path x with
    | ok result =>
      rw [hset] at h
      cases h
      exact .single (.write hw hset)
    | error e =>
      rw [hset] at h
      cases h
      exact .refl
  · refine tracks_look_bind ?_
    split
    · exact tracks_pure _
    · refine Tracks.bind (tracks_settle fun _ => .previous) fun _ p'' _ _ => ?_
      exact (tracks_notifyAll hrun hd _).bind fun _ _ _ _ => tracks_pure _

theorem tracks_assign {path : Path} {x : Value}
    (hw : p.isReadOnly path = false → rules.write p path x) :
    Tracks (Change rules) (assign run depth path x) (assign run' depth' path x) p := by
  refine tracks_look_bind ?_
  split
  · exact tracks_fail _
  · next hfree =>
    exact (tracks_write hrun hd (hw (by simpa using hfree))).bind fun _ _ _ _ => tracks_pure _

theorem tracks_assignExpression {e : Expression} {x : Value} {scope : ScopeName}
    (hw : scope = .page → p.isReadOnly e.path = false → rules.write p e.path x) :
    Tracks (Change rules) (e.assign (Page.scope run depth scope) x)
      (e.assign (Page.scope run' depth' scope) x) p := by
  refine tracks_ofExcept_bind fun path hpath => ?_
  rw [Expression.eq_path_of_target hpath]
  cases scope with
  | page => exact tracks_assign hrun hd (hw rfl)
  | plain name =>
    exact tracks_onPlain name fun v => tracks_plain_assign

theorem tracks_set {source : String} {x : Value}
    (hw : ∀ e, Expression.read source = .ok e → p.isReadOnly e.path = false →
      rules.write p e.path x) :
    Tracks (Change rules) (set run depth source x) (set run' depth' source x) p :=
  tracks_ofExcept_bind fun e he => tracks_assignExpression hrun hd fun _ => hw e he

end

/-! ## Bindings and events -/

section

variable {run run' : Program σ → Run (Page σ) Value}
  (hrun : ∀ program p, Tracks (Change rules) (run program) (run' program) p)

include hrun

theorem tracks_bind (node : Nat) (source : String) (request : BindingRequest) :
    Tracks (Change rules) (bind run node source request) (bind run' node source request) p := by
  unfold bind
  dsimp only
  refine tracks_ofExcept_bind fun e _ => ?_
  refine Tracks.bind (tracks_render hrun _) fun _ p' _ _ => ?_
  split
  · exact tracks_pure _
  · refine tracks_look_bind ?_
    split
    · exact tracks_pure _
    · refine (tracks_observe _ _).bind fun _ p'' _ _ => ?_
      split
      · exact tracks_listen _ _ _
      · exact tracks_pure _

/-! ## Compilation -/

theorem tracks_expandRepeat {compile compile' : Nat → Run (Page σ) Unit}
    (hcompile : ∀ i p, Tracks (Change rules) (compile i) (compile' i) p) (node : Nat)
    (source : String) : Tracks (Change rules) (expandRepeat run compile node source)
      (expandRepeat run' compile' node source) p := by
  refine tracks_ofExcept_bind fun parts _ => ?_
  refine (tracks_askSurface _).bind fun parent p' _ _ => ?_
  cases parent with
  | none => exact tracks_fail _
  | some parent =>
    refine (tracks_askSurface _).bind fun markup p₁ _ _ => ?_
    refine (tracks_editSurface _).bind fun _ p₂ _ _ => ?_
    refine (tracks_evaluate hrun _ _).bind fun members p₃ _ _ => ?_
    refine tracks_ofExcept_bind fun template _ => ?_
    refine (tracks_appendCopies _ _ _ _).bind fun copies p₄ _ _ => ?_
    refine (tracks_askSurface _).bind fun content p₅ _ _ => ?_
    split
    · exact hcompile _ _
    · exact tracks_forM fun i _ p₆ => hcompile i p₆

theorem tracks_handle {compile compile' : Nat → Run (Page σ) Unit}
    (hcompile : ∀ i p, Tracks (Change rules) (compile i) (compile' i) p) (h : Handler σ)
    (node : Nat) (source : String) : Tracks (Change rules) (handle run compile h node source)
      (handle run' compile' h node source) p := by
  cases h with
  | repeated =>
    exact (tracks_expandRepeat hrun hcompile node source).bind fun _ _ _ _ => tracks_pure _
  | model => exact (tracks_bind hrun node source _).bind fun _ _ _ _ => tracks_pure _
  | custom f =>
    refine (hrun _ p).bind fun v p' _ _ => ?_
    split <;> exact tracks_pure _

theorem tracks_applyDirective {compile compile' : Nat → Run (Page σ) Unit}
    (hcompile : ∀ i p, Tracks (Change rules) (compile i) (compile' i) p) (node : Nat) :
    Tracks (Change rules) (applyDirective run compile node)
      (applyDirective run' compile' node) p := by
  refine tracks_look_bind ?_
  split
  · exact tracks_pure _
  · exact (tracks_editSurface _).bind fun _ p' _ _ => tracks_handle hrun hcompile _ node _

theorem tracks_interpolate (node : Nat) :
    Tracks (Change rules) (interpolate run node) (interpolate run' node) p := by
  refine (tracks_askSurface _).bind fun markup p' _ _ => ?_
  split
  · exact tracks_pure _
  · exact tracks_bind hrun node _ _

theorem tracks_compileNode {depth depth' : Nat} (hd : depth ≤ depth') (node : Nat) :
    Tracks (Change rules) (compileNode run depth node) (compileNode run' depth' node) p := by
  induction depth generalizing depth' node p with
  | zero => exact tracks_exhausted _
  | succ depth ih =>
    obtain ⟨d, rfl⟩ : ∃ d, depth' = d + 1 := ⟨depth' - 1, by omega⟩
    refine (tracks_askSurface _).bind fun content p' _ _ => ?_
    split
    · refine (tracks_applyDirective hrun (fun i p => ih (by omega) i) node).bind
        fun stopped p₁ _ _ => ?_
      split
      · exact tracks_pure _
      · refine (tracks_interpolate hrun node).bind fun _ p₂ _ _ => ?_
        refine (tracks_askSurface _).bind fun children p₃ _ _ => ?_
        refine tracks_forM fun child _ p₄ => ?_
        refine (tracks_askSurface _).bind fun parent p₅ _ _ => ?_
        split
        · exact ih (by omega) child
        · exact tracks_pure _
    · exact tracks_pure _

theorem tracks_compile {depth depth' : Nat} (hd : depth ≤ depth') (mount : Mount) :
    Tracks (Change rules) (compile run depth mount) (compile run' depth' mount) p := by
  cases mount with
  | node i => exact tracks_compileNode hrun hd i
  | selector source =>
    exact (tracks_askSurface _).bind fun i p' _ _ => tracks_compileNode hrun hd i

/-! ## Events -/

variable {depth depth' : Nat} (hd : depth ≤ depth')

include hd

theorem tracks_callListener (event : Event) {l : Listener σ} (hl : Listener.Allowed rules l) :
    Tracks (Change rules) (callListener run depth event l) (callListener run' depth' event l) p := by
  cases l with
  | writeBack target e scope =>
    refine tracks_look_bind ?_
    split
    · refine (tracks_readTarget _ _).bind fun text p' _ _ => ?_
      refine tracks_assignExpression hrun hd fun hscope => ?_
      subst hscope
      exact hl p' text
    · exact tracks_pure _
  | script f => exact (hrun _ p).bind fun _ _ _ _ => tracks_pure _

theorem tracks_dispatch (node : Nat) (event : String) (value : Option String)
    (hl : Command.Allowed rules p (.dispatch node event value)) :
    Tracks (Change rules) (dispatch run depth node event value)
      (dispatch run' depth' node event value) p := by
  have hcall : ∀ p' : Page σ, Command.Allowed rules p' (.dispatch node event value) →
      Tracks (Change rules)
        (askSurface (fun s => s.listeners node event) >>= fun ls =>
          ls.forM (callListener run depth ⟨event, node⟩))
        (askSurface (fun s => s.listeners node event) >>= fun ls =>
          ls.forM (callListener run' depth' ⟨event, node⟩)) p' := by
    intro p' hp'
    refine (tracks_askSurface _).bind fun ls p₁ _ hls => ?_
    obtain ⟨hls, rfl⟩ := askSurface_eq_done hls
    exact tracks_forM fun l hmem _ => tracks_callListener hrun hd _ (hp' ls hls l hmem)
  cases value with
  | none => exact hcall p hl
  | some v =>
    refine (tracks_editSurface _).bind fun _ p' _ hedit => hcall p' ?_
    obtain ⟨-, rfl⟩ := editSurface_eq_done hedit
    intro ls hls
    exact hl ls ((Surface.listeners_setAttribute _ _ _ _ _ _).symm.trans hls)

/-! ## All commands -/

/-- Every command that the rules allow makes changes under the rules only. -/
theorem tracks_perform {c : Command} (hc : Command.Allowed rules p c) :
    Tracks (Change rules) (perform run depth c) (perform run' depth' c) p := by
  cases c with
  | surface e => exact tracks_editSurface e
  | dispatch node event value => exact tracks_dispatch hrun hd node event value hc
  | graph e => exact tracks_editGraph hc
  | notify id => exact tracks_notify hrun id
  | notifyBelow id => exact tracks_notifyBelow hrun hd id
  | notifyAbove id => exact tracks_notifyAbove hrun hd id
  | notifyAll id => exact tracks_notifyAll hrun hd id
  | notifyEvery => exact tracks_notifyEvery hrun
  | write path x => exact tracks_write hrun hd hc
  | valueOf source => exact tracks_valueOf hrun source
  | lookup name => exact tracks_lookup hrun name
  | invoke name => exact tracks_invoke hrun name
  | assign path x => exact tracks_assign hrun hd hc
  | evaluate source scope => exact tracks_evaluate hrun source scope
  | set source x => exact tracks_set hrun hd hc
  | refresh source => exact tracks_refresh hrun hd source
  | grow source => exact tracks_grow hc source
  | bind node source request => exact tracks_bind hrun node source request
  | compile mount => exact tracks_compile hrun hd mount
  | handle directive node source =>
    refine tracks_look_bind ?_
    split
    · exact tracks_pure _
    · refine (tracks_handle hrun ?_ _ node source).bind fun _ _ _ _ => tracks_pure _
      exact fun i p' => tracks_compileNode hrun hd i

end

end Page

end ReactiveView
