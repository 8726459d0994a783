import ReactiveView.Proofs.Graph.Mirror
import ReactiveView.Proofs.Page.Bound
import ReactiveView.Proofs.Surface.Lists
/-!
# Items and their bindings

An item of a list that is compiled interpolates the accessor of a member, which leads to what the
name `items` has in the data. Binding it always succeeds: the head of the accessor is a field of the
data, so no program runs, and what the accessor names in the graph, if anything, is there to be
observed. The item then shows the member, rendered, and the rest of the document is as before.

Results:
* `bind_of_render`: a one-way binding that renders is done.
* `bindItem_done`, `forM_bindItem`: what binding one item does, and binding one after the other.
-/
namespace ReactiveView

namespace Page

open Run Template

variable {σ : Type} {p p' : Page σ}

theorem askSurface_bind {α β : Type} {f : Surface (Listener σ) → Except Error α} {a : α}
    (h : f p.surface = .ok a) (k : α → Run (Page σ) β) : (askSurface f >>= k) p = k a p := by
  have hask : askSurface f p = .done a p := by
    show Run.ofExcept (f p.surface) p = _
    rw [h]
    rfl
  rw [bind_of_done hask]

theorem editSurface_done {e : Surface.Edit} {r : e.Reply} {surface : Surface (Listener σ)}
    (h : p.surface.apply e = (.ok r, surface)) :
    editSurface e p = .done r { p with surface } := by
  simp only [editSurface, onSurface, Run.edit, h]

theorem read_items : Expression.read "items" = .ok ⟨"items", "items", [], false⟩ :=
  eq_ok_of_toOption (by decide +kernel)

theorem evaluate_items {v : Value} (hv : p.data.field? "items" = some v)
    (run : Program σ → Run (Page σ) Value) : evaluate run "items" .page p = .done v p :=
  evaluate_name read_items hv run

/-! ## Bindings of items -/

/-- The binding that an item is given: it shows the member that its accessor leads to. -/
def itemRequest : BindingRequest := ⟨.content, none, false, .page⟩

/-- A binding of an item to the accessor of a member, with the key escaped as markup, unless there
is a mark in this key. -/
def bindItem (run : Program σ → Run (Page σ) Value) (x : Nat × Segment) : Run (Page σ) Unit :=
  if hasMark (escapeSegment x.2).key.toList then pure ()
  else bind run x.1 (String.ofList (accessor "items".toList (escapeSegment x.2))) itemRequest

/-- The text that an item has before it is bound. -/
def itemTextOf (s : Segment) : String := String.ofList (rowText (accessor "items".toList s))

theorem isName_items : Expression.IsName "items".toList :=
  Expression.isName_of_all (by decide +kernel) (by decide +kernel)

theorem interpolate_item {node : Nat} {s : Segment}
    (h : p.surface.ShowsText node (itemTextOf s)) (run : Program σ → Run (Page σ) Value) :
    interpolate run node p = bindItem run (node, s) p := by
  have hmarkup := Surface.innerMarkup_of_showsText h
  have hinterpolation := interpolated?_copy isName_items s
  unfold interpolate
  rw [askSurface_bind hmarkup]
  simp only [interpolation?, itemTextOf, String.toList_ofList, hinterpolation, bindItem]
  split <;> rfl

theorem evaluate_access {v : Value} (hv : p.data.field? "items" = some v) (s : Segment)
    (run : Program σ → Run (Page σ) Value) :
    (access "items".toList s).evaluate (names run .page) p
      = .done ((v.member? s).getD .null) p := by
  have hhead : (access "items".toList s).head = "items" := String.ofList_toList
  have hat : v.at? (access "items".toList s).tail = v.member? s := by
    exact Option.bind_fun_some _
  rw [evaluate_of_field? rfl (hhead ▸ hv), hat]

/-- The text of an item rendered: the value at the accessor. -/
theorem render_item {front back : List (Nat × String)} {node : Nat} {t : String}
    (h : p.surface.Lists (front ++ (node, t) :: back)) {v : Value}
    (hv : p.data.field? "items" = some v) (s : Segment) (run : Program σ → Run (Page σ) Value) :
    ∃ surface, render run ⟨node, .content, access "items".toList s, .page⟩ p
        = .done () { p with surface } ∧
      surface.Lists (front ++ (node, ((v.member? s).getD .null).render) :: back) := by
  obtain ⟨surface, hset, hlists⟩ := h.setText ((v.member? s).getD .null).render
  have happly : p.surface.apply (.setText node ((v.member? s).getD .null).render)
      = (.ok (), surface) := hset
  exact ⟨surface, (bind_of_done (evaluate_access hv s run)).trans (editSurface_done happly), hlists⟩

/-- A binding that renders is done if it is one-way: it becomes an observer of the node that its
expression names, if there is one. -/
theorem bind_of_render {node : Nat} {source : String} {request : BindingRequest} {e : Expression}
    {run : Program σ → Run (Page σ) Value}
    (hrender : render run ⟨node, request.target, e, request.scope⟩ p = .done () p')
    (hread : Expression.read (Text.trimmed source) = .ok e) (hcall : e.isCall = false)
    (hway : request.twoWay = false) (hg : p'.graph.Grown) :
    ∃ graph, bind run node source request p = .done () { p' with graph } ∧
      p'.graph.SameShape graph ∧ ∀ n o, o ∈ graph.observers n ↔ o ∈ p'.graph.observers n ∨
        p'.graph.locate (Text.trimmed source) = some n ∧
          o = .binding ⟨node, request.target, e, request.scope⟩ := by
  unfold Page.bind
  simp only [hread, hway]
  cases hid : p'.graph.locate (Text.trimmed source) with
  | none =>
    have hlook : Run.look (fun p : Page σ => p.graph.locate (Text.trimmed source)) p'
        = .done none p' := by rw [Run.look, hid]
    refine ⟨p'.graph, (bind_of_done hrender).trans ?_, .refl _, fun n o => ?_⟩
    · rw [if_neg (by simp [hcall])]
      exact bind_of_done hlook
    · simp
  | some id =>
    have hlook : Run.look (fun p : Page σ => p.graph.locate (Text.trimmed source)) p'
        = .done (some id) p' := by rw [Run.look, hid]
    obtain ⟨graph, hgraph⟩ : ∃ graph, p'.graph.observe id
        (.binding ⟨node, request.target, e, request.scope⟩) = .ok graph := by
      rw [Graph.observe, if_pos (Graph.contains_of_locate hg hid)]
      exact ⟨_, rfl⟩
    have hobserve : onGraph (fun g => g.settle
        (g.observe id (.binding ⟨node, request.target, e, request.scope⟩))) p'
        = .done () { p' with graph } := by
      rw [onGraph, Run.edit, hgraph]
      rfl
    refine ⟨graph, (bind_of_done hrender).trans ?_, Graph.sameShape_observe hgraph, fun n o => ?_⟩
    · rw [if_neg (by simp [hcall])]
      exact (bind_of_done hlook).trans (bind_of_done hobserve)
    · rw [Graph.mem_observers_observe hgraph, Option.some.injEq, @eq_comm _ id]

theorem locate_accessor {ω : Type} {g : Graph ω} (hg : g.Grown) {s : Segment} (hs : Accessible s) :
    g.locate (Text.trimmed (String.ofList (accessor "items".toList s)))
      = g.walk Graph.root ["items", s.key] := by
  have hread := Expression.read_trimmed (read_accessor isName_items hs)
  have hroot : Text.trimmed (String.ofList (accessor "items".toList s)) ≠ Expression.rootName := by
    intro heq
    have hhead := congrArg (fun r => r.toOption.map Expression.head) (heq ▸ hread)
    exact absurd (hhead.trans (congrArg some String.ofList_toList)) (by decide +kernel)
  rw [locate_trimmed]
  have hpath : (access "items".toList s).path = [.field "items", s] :=
    congrArg (fun name => [Segment.field name, s]) String.ofList_toList
  simp only [Graph.locate, if_neg hroot, hread]
  exact (congrArg g.resolve hpath).trans (Graph.resolve_cons_cons hg _ _ _)

/-- The observer that a bound item becomes. -/
def itemBinding (x : Nat × Segment) : Binding :=
  ⟨x.1, .content, access "items".toList x.2, .page⟩

/-- A binding of an item is done. The item then shows the value at the accessor, and apart from
that only the observers of the graph change: the node of the member hears of the binding. -/
theorem bind_item (hnamed : Named p) {front back : List (Nat × String)} {node : Nat} {t : String}
    (h : p.surface.Lists (front ++ (node, t) :: back)) {v : Value}
    (hv : p.data.field? "items" = some v) {s : Segment} (hs : Accessible s)
    (run : Program σ → Run (Page σ) Value) :
    ∃ surface graph, bind run node (String.ofList (accessor "items".toList s)) itemRequest p
        = .done () { p with surface, graph } ∧
      surface.Lists (front ++ (node, ((v.member? s).getD .null).render) :: back) ∧
      p.graph.SameShape graph ∧ ∀ n o, o ∈ graph.observers n ↔ o ∈ p.graph.observers n ∨
        p.graph.walk Graph.root ["items", s.key] = some n ∧
          o = .binding (itemBinding (node, s)) := by
  have hread := Expression.read_trimmed (read_accessor isName_items hs)
  obtain ⟨surface, hrender, hlists⟩ := render_item h hv s run
  have hrender : render run ⟨node, itemRequest.target, access "items".toList s, itemRequest.scope⟩ p
      = .done () { p with surface } := hrender
  obtain ⟨graph, hbind, hshape, hobservers⟩ :=
    bind_of_render hrender hread rfl rfl hnamed.keyed.grown
  refine ⟨surface, graph, hbind, hlists, hshape, fun n o => ?_⟩
  rw [hobservers, locate_accessor hnamed.keyed.grown hs]
  rfl

/-- The text that an item shows once it is compiled: the value at its accessor with the key escaped,
or the text it had if this key holds a mark. -/
def shownText (v : Value) (s : Segment) : String :=
  if hasMark (escapeSegment s).key.toList then itemTextOf s
  else ((v.member? (escapeSegment s)).getD .null).render

theorem accessible_escapeSegment {s : Segment} (hs : Accessible s) :
    Accessible (escapeSegment s) := by
  cases s with
  | field key => trivial
  | index n => exact hs

/-- Whether a node hears an observer because an item is bound: the observer is the item's, and the
node is that of its member. An item whose key holds a mark is not bound. -/
def Hears {ω : Type} (g : Graph ω) (x : Nat × Segment) (n : Nat) (o : Observer σ) : Prop :=
  hasMark (escapeSegment x.2).key.toList = false ∧
    g.walk Graph.root ["items", (escapeSegment x.2).key] = some n ∧
    o = .binding (itemBinding (x.1, escapeSegment x.2))

theorem bindItem_done (hnamed : Named p) {front back : List (Nat × String)} {node : Nat}
    {s : Segment} (h : p.surface.Lists (front ++ (node, itemTextOf s) :: back)) {v : Value}
    (hv : p.data.field? "items" = some v) (hs : Accessible s)
    (run : Program σ → Run (Page σ) Value) :
    ∃ surface graph, bindItem run (node, s) p = .done () { p with surface, graph } ∧
      surface.Lists (front ++ (node, shownText v s) :: back) ∧ p.graph.SameShape graph ∧
      ∀ n o, o ∈ graph.observers n ↔ o ∈ p.graph.observers n ∨ Hears p.graph (node, s) n o := by
  unfold bindItem shownText Hears
  dsimp only
  split
  · next hmark => exact ⟨p.surface, p.graph, rfl, h, .refl _, fun n o => by simp [hmark]⟩
  · next hmark =>
    simp only [hmark, true_and]
    exact bind_item hnamed h hv (accessible_escapeSegment hs) run

theorem Named.keeps (hp : Named p) {surface : Surface (Listener σ)} {graph : Graph (Observer σ)}
    (hs : surface.Sound) (hshape : p.graph.SameShape graph) : Named { p with surface, graph } :=
  ⟨hs, hp.keyed.sameShape hshape⟩

theorem Hears.iff_of_sameShape {ω : Type} {g g' : Graph ω} (h : g.SameShape g') (x : Nat × Segment)
    (n : Nat) (o : Observer σ) : Hears g' x n o ↔ Hears g x n o := by
  simp only [Hears, h.walk]

/-- Items bound one after the other: each shows its text, in the same places, and is heard. -/
theorem forM_bindItem (hnamed : Named p) {v : Value} (hv : p.data.field? "items" = some v)
    {front : List (Nat × String)} {todo : List (Nat × Segment)} (hs : ∀ x ∈ todo, Accessible x.2)
    (h : p.surface.Lists (front ++ todo.map fun x => (x.1, itemTextOf x.2)))
    (run : Program σ → Run (Page σ) Value) :
    ∃ surface graph, todo.forM (bindItem run) p = .done () { p with surface, graph } ∧
      surface.Lists (front ++ todo.map fun x => (x.1, shownText v x.2)) ∧
      p.graph.SameShape graph ∧ ∀ n o, o ∈ graph.observers n ↔
        o ∈ p.graph.observers n ∨ ∃ x ∈ todo, Hears p.graph x n o := by
  induction todo generalizing front p with
  | nil => exact ⟨p.surface, p.graph, rfl, h, .refl _, fun n o => by simp⟩
  | cons x rest ih =>
    obtain ⟨surface, graph, hbind, hlists, hshape, hobservers⟩ :=
      bindItem_done hnamed h hv (hs x List.mem_cons_self) run
    have hrest : surface.Lists ((front ++ [(x.1, shownText v x.2)])
        ++ rest.map fun x => (x.1, itemTextOf x.2)) := by
      rw [List.append_assoc]
      exact hlists
    obtain ⟨surface', graph', hforM, hlists', hshape', hobservers'⟩ :=
      @ih { p with surface, graph } (hnamed.keeps hlists.sound hshape) hv _
        (fun y hy => hs y (List.mem_cons_of_mem _ hy)) hrest
    rw [List.append_assoc] at hlists'
    refine ⟨surface', graph', (bind_of_done hbind).trans hforM, hlists', hshape.trans hshape',
      fun n o => ?_⟩
    rw [hobservers', hobservers, or_assoc]
    simp only [Hears.iff_of_sameShape hshape, List.exists_mem_cons_iff]

end Page

end ReactiveView
