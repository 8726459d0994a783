import ReactiveView.Proofs.Page.Item
import ReactiveView.Proofs.Page.Policy
import ReactiveView.Proofs.Surface.Attributes
import ReactiveView.Proofs.Surface.WellFormed
/-!
# Attributes bound both ways

A binding of an attribute renders into the attribute of its name in lower case. On an event it
writes back what it finds under the name as it was given. So it writes back what it renders into if
the name is in lower case; otherwise it finds nothing, and writes back an empty text, whatever the
attribute holds.

Results:
* `surface_of_changes`: on every later page the surface can come about, and elements are elements.
* `listens_of_bind`: what a binding both ways leaves on the page.
* `bindsAttribute`: what a bound attribute does when it is rendered and when an event comes.
* `attribute_readBack`: what is found of an attribute, on surfaces and on pages.
-/
namespace ReactiveView.Page

open Relation Run Surface ReactiveView.Graph

variable {σ : Type} {rules : Rules σ} {p p' q : Page σ} {node : Nat} {name : String}

/-! ## Later pages -/

theorem surface_of_change (h : Change rules p q) (hp : p.surface.Reached) :
    q.surface.Reached ∧ ∀ i, p.surface.IsElement i → q.surface.IsElement i := by
  cases h with
  | surface hstep =>
    refine ⟨.step hp hstep, fun i hi => ?_⟩
    cases hstep with
    | edit e => exact (continues_apply (wellFormed_of_reached hp) e).isElement hi
    | listen hl =>
      obtain ⟨tag, as, hi⟩ := hi
      exact ⟨tag, as, ((listen_keeps hl).1 i).trans hi⟩
  | scopes => exact ⟨hp, fun _ hi => hi⟩
  | host => exact ⟨hp, fun _ hi => hi⟩
  | write => exact ⟨hp, fun _ hi => hi⟩
  | previous => exact ⟨hp, fun _ hi => hi⟩
  | observe => exact ⟨hp, fun _ hi => hi⟩
  | growRoot => exact ⟨hp, fun _ hi => hi⟩
  | growData => exact ⟨hp, fun _ hi => hi⟩
  | graph => exact ⟨hp, fun _ hi => hi⟩

/-- Whatever happens to a page, its surface is one that can come about, and elements stay
elements. -/
theorem surface_of_changes (h : ReflTransGen (Change rules) p q) (hp : p.surface.Reached) :
    q.surface.Reached ∧ ∀ i, p.surface.IsElement i → q.surface.IsElement i := by
  induction h with
  | refl => exact ⟨hp, fun _ hi => hi⟩
  | tail _ hlast ih =>
    obtain ⟨hreached, helement⟩ := surface_of_change hlast ih.1
    exact ⟨hreached, fun i hi => helement i (ih.2 i hi)⟩

/-! ## Rendering and writing back -/

/-- What rendering into an attribute does: the value is written as it is found, and nothing else of
the surface is changed after that. -/
theorem setsAttribute_of_render {run : Program σ → Run (Page σ) Value} {b : Binding}
    (hb : b.target = .attributeNamed name) (h : render run b p = .done () p') :
    ∃ v q, b.expression.evaluate (names run b.scope) p = .done v q ∧
      q.surface.IsElement b.node ∧ SetsAttribute b.node name v.render q.surface p'.surface ∧
      p'.graph = q.graph := by
  obtain ⟨v, q, hv, hwrite⟩ := bind_eq_done h
  rw [hb] at hwrite
  obtain ⟨hdone, rfl⟩ := editSurface_eq_done hwrite
  have helement : q.surface.IsElement b.node := by
    cases hset : q.surface.setAttribute b.node name v.render with
    | error err =>
      rw [Surface.apply, hset] at hdone
      cases hdone
    | ok s =>
      obtain ⟨tag, attributes, hi, -⟩ := setAttribute_eq_ok hset
      exact ⟨tag, attributes, hi⟩
  obtain ⟨s', happly, hsets⟩ := setAttribute_sets helement name v.render
  rw [happly]
  exact ⟨v, q, hv, helement, hsets, rfl⟩

/-- What is written back on an event is what the exact name finds. -/
theorem callListener_attribute (hlive : q.live = true) (hnode : q.surface.IsElement node)
    (run : Program σ → Run (Page σ) Value) (depth : Nat) (event name : String) (e : Expression)
    (scopeName : ScopeName) :
    callListener run depth ⟨event, node⟩ (.writeBack (.attributeNamed name) e scopeName) q
      = e.assign (scope run depth scopeName) (.text (q.surface.attributeText node name)) q := by
  obtain ⟨tag, attributes, hnode⟩ := hnode
  have hvalue := attributeValue_of_content? hnode name
  have htext : q.surface.attributeText node name = (attributes.get? name).getD "" := by
    rw [attributeText, hvalue]
  have hread : readTarget node (.attributeNamed name) q
      = .done (q.surface.attributeText node name) q := by
    rw [htext]
    exact askSurface_bind hvalue _
  have hask : Run.look (fun p : Page σ => p.live) q = .done true q :=
    congrArg (Outcome.done · q) hlive
  refine (bind_of_done hask).trans ?_
  rw [if_pos rfl]
  exact bind_of_done hread

/-- The text that a name finds is that of the attribute in lower case if and only if the name is in
lower case, or there is nothing to find. -/
theorem attributeText_eq_iff {s : Surface (Listener σ)} (hs : s.Reached) (hi : s.IsElement node)
    (name : String) : s.attributeText node name = s.attributeText node (Text.lowered name) ↔
      Text.lowered name = name ∨ s.attributeText node (Text.lowered name) = "" := by
  by_cases hname : Text.lowered name = name
  · rw [hname]
    simp
  · have hnone : s.attributeText node name = "" := by
      rw [attributeText, attributeValue_eq_none hs hi hname]
      rfl
    rw [hnone, or_iff_right hname, eq_comm]

/-- How an attribute that is bound both ways is kept on a page. It is rendered under its name in
lower case. While the page lives, an event assigns to the expression what the exact name finds, and
this is what the attribute holds if and only if the name is in lower case, or it holds nothing. -/
structure BindsAttribute (node : Nat) (name : String) (e : Expression) (scopeName : ScopeName)
    (q : Page σ) : Prop where
  renders : ∀ run q', render run ⟨node, .attributeNamed name, e, scopeName⟩ q = .done () q' →
    ∃ v q₁, e.evaluate (names run scopeName) q = .done v q₁ ∧
      SetsAttribute node name v.render q₁.surface q'.surface
  writes : q.live = true → ∀ run depth event, ∃ t,
    callListener run depth ⟨event, node⟩ (.writeBack (.attributeNamed name) e scopeName) q
      = e.assign (scope run depth scopeName) (.text t) q ∧
    (t = q.surface.attributeText node (Text.lowered name) ↔
      Text.lowered name = name ∨ q.surface.attributeText node (Text.lowered name) = "")

theorem bindsAttribute (hs : q.surface.Reached) (hi : q.surface.IsElement node) (name : String)
    (e : Expression) (scopeName : ScopeName) : BindsAttribute node name e scopeName q where
  renders run q' h := by
    obtain ⟨v, q₁, hv, -, hsets, -⟩ := setsAttribute_of_render rfl h
    exact ⟨v, q₁, hv, hsets⟩
  writes hlive run depth event :=
    ⟨_, callListener_attribute hlive hi run depth event name e scopeName,
      attributeText_eq_iff hs hi name⟩

/-! ## Bindings -/

/-- A binding that is done has rendered. Without a node for its expression, that is all. -/
theorem render_of_bind {run : Program σ → Run (Page σ) Value} {source : String}
    {request : BindingRequest} (h : Page.bind run node source request p = .done () p') :
    ∃ e p₁, Expression.read (Text.trimmed source) = .ok e ∧
      render run ⟨node, request.target, e, request.scope⟩ p = .done () p₁ ∧
      (e.isCall = true ∨ p₁.graph.locate (Text.trimmed source) = none → p' = p₁) := by
  unfold Page.bind at h
  dsimp only at h
  cases hread : Expression.read (Text.trimmed source) with
  | error err =>
    rw [hread] at h
    cases h
  | ok e =>
    rw [hread] at h
    have h : (render run ⟨node, request.target, e, request.scope⟩ >>= _) p = .done () p' := h
    obtain ⟨_, p₁, hrender, hrest⟩ := bind_eq_done h
    refine ⟨e, p₁, rfl, hrender, fun hnone => ?_⟩
    split at hrest
    · cases hrest
      rfl
    · next hcall =>
      obtain ⟨found, p₂, hlook, hlast⟩ := bind_eq_done hrest
      obtain ⟨hfound, rfl⟩ := look_eq_done hlook
      rw [← hfound, hnone.resolve_left hcall] at hlast
      cases hlast
      rfl

theorem exists_listeners {s : Surface (Listener σ)} (hi : s.IsElement node) (event : String) :
    ∃ ls, s.listeners node event = .ok ls := by
  obtain ⟨tag, attributes, hi⟩ := hi
  obtain ⟨item, hitem, -⟩ := Option.map_eq_some_iff.mp hi
  exact ⟨_, by rw [Surface.listeners, hitem]⟩

/-- An attribute of an element that is bound both ways: the name in lower case has the value, and if
the expression has a node, this binding hears of it, and the element writes back. -/
theorem listens_of_bind {run : Program σ → Run (Page σ) Value} {source : String}
    {event : Option String} {scopeName : ScopeName}
    (h : Page.bind run node source ⟨.attributeNamed name, event, true, scopeName⟩ p = .done () p') :
    ∃ e v q, Expression.read (Text.trimmed source) = .ok e ∧
      e.evaluate (names run scopeName) p = .done v q ∧ p'.surface.IsElement node ∧
      p'.surface.attributeValue node (Text.lowered name) = .ok (some v.render) ∧
      (e.isCall = false → ∀ id, q.graph.locate (Text.trimmed source) = some id →
        .binding ⟨node, .attributeNamed name, e, scopeName⟩ ∈ p'.graph.observers id ∧
        ∃ ls, p'.surface.listeners node (event.getD Event.default)
          = .ok (ls ++ [.writeBack (.attributeNamed name) e scopeName])) := by
  obtain ⟨e, p₁, hread, hrender, hplain⟩ := render_of_bind h
  obtain ⟨v, q, hv, hi, hsets, hgraph⟩ := setsAttribute_of_render rfl hrender
  have hi₁ : p₁.surface.IsElement node := hsets.tree.isElement hi
  refine ⟨e, v, q, hread, hv, ?_⟩
  by_cases hnone : e.isCall = true ∨ p₁.graph.locate (Text.trimmed source) = none
  · obtain rfl := hplain hnone
    refine ⟨hi₁, hsets.value, fun hcall id hid => ?_⟩
    rw [hcall, hgraph, hid] at hnone
    simp at hnone
  · obtain ⟨hcall, hsome⟩ := not_or.mp hnone
    obtain ⟨id, hid⟩ := Option.ne_none_iff_exists'.mp hsome
    obtain ⟨graph, hobserve, ⟨hway, -⟩ | ⟨-, surface, hlisten, rfl⟩⟩ :=
      observe_of_bind hread (Bool.eq_false_iff.mpr hcall) hrender hid h
    · cases hway
    obtain ⟨ls, hls⟩ := exists_listeners hi₁ (event.getD Event.default)
    have hcontent := (listen_keeps hlisten).1
    obtain ⟨tag, attributes, hel⟩ : p₁.surface.IsElement node := hi₁
    have hel' := (hcontent node).trans hel
    refine ⟨⟨tag, attributes, hel'⟩, ?_, fun _ m hm =>
      ⟨?_, ls, ((listen_eq_ok hlisten).2 ls hls).1⟩⟩
    · rw [attributeValue_of_content? hel', ← attributeValue_of_content? hel]
      exact hsets.value
    · rw [← hgraph, hid] at hm
      cases hm
      exact (mem_observers_observe hobserve id _).mpr (.inr ⟨rfl, rfl⟩)

/-! ## Reading back -/

/-- Attributes by name. On a surface that can come about, every element takes every attribute and
lets it be taken away. What is written goes under the name in lower case and is found under the name
as it was given if and only if this is in lower case; then and when an attribute is taken away, the
other attributes keep their values and places. So an attribute that is bound both ways under a name
is rendered under the name in lower case, and as long as the page lives, whatever happens to it, an
event writes back what the attribute holds if and only if the name is in lower case, or it holds
nothing. -/
theorem attribute_readBack {ℓ : Type} (name : String) :
    (∀ (s : Surface ℓ) (i : Nat), s.Reached → s.IsElement i →
      (∀ value, ∃ s', s.apply (.setAttribute i name value) = (.ok (), s') ∧
        SetsAttribute i name value s s' ∧
        (s'.attributeValue i name = .ok (some value) ↔ Text.lowered name = name)) ∧
      ∃ s', s.apply (.removeAttribute i name) = (.ok (), s') ∧ DropsAttribute i name s s') ∧
    ∀ (p p' : Page σ) (levels node : Nat) (source : String) (event : Option String)
      (scopeName : ScopeName), p.surface.Reached →
      bind (interpret levels) node source ⟨.attributeNamed name, event, true, scopeName⟩ p
        = .done () p' →
      ∃ e v q, Expression.read (Text.trimmed source) = .ok e ∧
        e.evaluate (names (interpret levels) scopeName) p = .done v q ∧
        p'.surface.attributeValue node (Text.lowered name) = .ok (some v.render) ∧
        (e.isCall = false → ∀ id, q.graph.locate (Text.trimmed source) = some id →
          .binding ⟨node, .attributeNamed name, e, scopeName⟩ ∈ p'.graph.observers id ∧
          ∃ ls, p'.surface.listeners node (event.getD Event.default)
            = .ok (ls ++ [.writeBack (.attributeNamed name) e scopeName])) ∧
        ∀ later, ReflTransGen (Change .all) p' later →
          BindsAttribute node name e scopeName later := by
  refine ⟨fun s i hs hi => ⟨fun value => ?_, removeAttribute_drops hi name⟩, ?_⟩
  · obtain ⟨s', happly, hsets⟩ := setAttribute_sets hi name value
    have hs' : s'.Reached := by
      have hstep := Step.edit s (.setAttribute i name value)
      rw [happly] at hstep
      exact .step hs hstep
    exact ⟨s', happly, hsets, hsets.found_iff hs' hi⟩
  · intro p p' levels node source event scopeName hp hbind
    obtain ⟨e, v, q, hread, hv, hi, hvalue, hlistens⟩ := listens_of_bind hbind
    have hruns := fun program p => @tracks_interpret σ levels levels (Nat.le_refl levels) program p
    have hchanges := ((tracks_bind hruns node source _).done hbind).2
    obtain ⟨hp', -⟩ := surface_of_changes hchanges hp
    refine ⟨e, v, q, hread, hv, hvalue, hlistens, fun later hlater => ?_⟩
    obtain ⟨hreached, helement⟩ := surface_of_changes hlater hp'
    exact bindsAttribute hreached (helement node hi) name e scopeName

/-- A page with one field, which holds a text, and one element. -/
def titlePage : Page Unit :=
  assemble ⟨.record [("b", .text "x")], [], [], []⟩ [] [] copySurface ()

/-- The page after its field was bound both ways to an attribute with a capital letter. -/
def titleBound : Page Unit :=
  (bind (interpret 1) 1 "b" ⟨.attributeNamed "Title", none, true, .page⟩ titlePage).stateD titlePage

/-- The element shows the text of the field under the name in lower case, but an event would write
another text back. On the surface alone, nothing is found under the name that was written. -/
theorem attribute_readBack_title :
    copySurface.Reached ∧ copySurface.IsElement 1 ∧
    (∃ s', copySurface.apply (.setAttribute 1 "Title" "x") = (.ok (), s') ∧
      s'.attributeValue 1 "title" = .ok (some "x") ∧
      s'.attributeValue 1 "Title" ≠ .ok (some "x")) ∧
    bind (interpret 1) 1 "b" ⟨.attributeNamed "Title", none, true, .page⟩ titlePage
      = .done () titleBound ∧
    titleBound.surface.attributeText 1 "title" = "x" ∧
    ∃ e t, Expression.read "b" = .ok e ∧
      callListener (interpret 1) 1 ⟨"input", 1⟩ (.writeBack (.attributeNamed "Title") e .page)
        titleBound = e.assign (scope (interpret 1) 1 .page) (.text t) titleBound ∧ t ≠ "x" := by
  have helement : copySurface.IsElement 1 := ⟨"p", [], rfl⟩
  have hlowered : Text.lowered "Title" = "title" := by decide +kernel
  have hname : Text.lowered "Title" ≠ "Title" := by decide +kernel
  have hbind : bind (interpret 1) 1 "b" ⟨.attributeNamed "Title", none, true, .page⟩ titlePage
      = .done () titleBound := Outcome.eq_done (by decide +kernel) titlePage
  have htext : titleBound.surface.attributeText 1 "title" = "x" := by decide +kernel
  have hlive : titleBound.live = true := by decide +kernel
  have htrimmed : Text.trimmed "b" = "b" := by decide +kernel
  obtain ⟨hsurface, hpage⟩ := @attribute_readBack Unit (Listener Unit) "Title"
  obtain ⟨hset, -⟩ := hsurface copySurface 1 reached_copySurface helement
  obtain ⟨s', happly, hsets, hfound⟩ := hset "x"
  obtain ⟨e, v, q, hread, -, -, -, hlater⟩ :=
    hpage titlePage titleBound 1 1 "b" none .page reached_copySurface hbind
  obtain ⟨t, hcall, hback⟩ := (hlater titleBound .refl).writes hlive (interpret 1) 1 "input"
  rw [htrimmed] at hread
  rw [hlowered, htext] at hback
  refine ⟨reached_copySurface, helement, ⟨s', happly, hlowered ▸ hsets.value, ?_⟩, hbind, htext, e,
    t, hread, hcall, fun heq => ?_⟩
  · exact fun hsame => hname (hfound.mp hsame)
  · rcases hback.mp heq with hsame | hempty
    · exact absurd hsame (by decide +kernel)
    · exact absurd hempty (by decide)

end ReactiveView.Page
