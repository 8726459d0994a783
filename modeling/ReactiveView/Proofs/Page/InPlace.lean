import ReactiveView.Proofs.Page.Item
import ReactiveView.Proofs.Surface.Retouched
/-!
# Bound parts that are written in place

A part of a node that is bound is its content or an attribute. The content of an element with one
text in it is written into this text, and an attribute is written into the element, so the tree
stays as it is. What has shown the text that is written still shows it: the other parts are
elsewhere, or they are the part that is written.

Results:
* `Open.retouched`: a part that can be written in place stays one.
* `writeTarget_of_open`: a write into such a part is done, in place.
-/
namespace ReactiveView

namespace Target

open Surface

variable {ℓ : Type} {s s' : Surface ℓ} {D : Nat → Prop} {i : Nat} {t : String} {target : Target}

/-- A part of a node that can be written in place: the only text of an element, or an attribute. -/
def Open (s : Surface ℓ) (i : Nat) : Target → Prop
  | .content => ∃ t, s.ShowsText i t
  | .attributeNamed name => s.IsElement i ∧ Text.lowered name = name

/-- The nodes whose content is written with a part of a node. -/
def Reach (s : Surface ℓ) (i : Nat) : Target → Nat → Prop
  | .content => s.forest.Above i
  | .attributeNamed _ => (· = i)

theorem Reach.spans {j : Nat} (h : target.Reach s i j) : s.forest.Spans i j := by
  cases target with
  | content => exact .inr h
  | attributeNamed name => exact .inl (Eq.symm h)

theorem Open.retouched (h : target.Open s i) (hs : Retouched D s s') : target.Open s' i := by
  cases target with
  | content =>
    obtain ⟨t, ht⟩ := h
    exact hs.exists_showsText ht
  | attributeNamed name => exact ⟨hs.isElement h.1, h.2⟩

/-- The value of an element can be written in place. -/
theorem open_value (h : s.IsElement i) : (Target.attributeNamed "value").Open s i :=
  ⟨h, by decide +kernel⟩

/-- A text written into a part of a node in place. What shows this text already still shows it. -/
structure Writes (target : Target) (i : Nat) (t : String) (s s' : Surface ℓ) : Prop where
  tree : Retouched (target.Reach s i) s s'
  listeners : ∀ j event, s'.listeners j event = s.listeners j event
  shows : target.Shows s' i t
  keeps : ∀ j (part : Target), part.Shows s j t → part.Shows s' j t

theorem writes_content (hs : s.Sound) {u : String} (h : s.ShowsText i u) (t : String) :
    ∃ s', s.setText i t = (.ok (), s') ∧ Target.content.Writes i t s s' := by
  obtain ⟨c, hlone, hc, hset⟩ := setText_of_showsText h t
  have hc' : (s.mapContent c fun _ => .text t).content? c = some (.text t) := by
    rw [content?_mapContent, if_pos rfl, hc]
    rfl
  have htree : Retouched (· = c) s (s.mapContent c fun _ => .text t) :=
    retouched_mapContent hc rfl
  have hmem : c ∈ s.forest.children i := by
    rw [(loneText?_eq_some hlone).1]
    exact List.mem_singleton_self c
  have habove : s.forest.Above i c := .parent ((hs.linked.iff i c).mp hmem)
  refine ⟨_, hset, ?_⟩
  refine ⟨htree.mono fun j hj => hj ▸ habove, fun j event => listeners_mapContent _ _ j event,
    ((overwrites_mapContent s c t).shows hs h.1 hlone).1, fun j part hj => ?_⟩
  cases part with
  | content =>
    obtain ⟨hel, d, hd, ht⟩ := hj
    refine ⟨htree.isElement hel, d, (htree.children j).trans hd, ?_⟩
    by_cases hdc : d = c
    · rw [hdc, hc']
    · rw [htree.content? hdc, ht]
  | attributeNamed name =>
    obtain ⟨tag, as, hel, ht⟩ := hj
    have hne : j ≠ c := by
      rintro rfl
      rw [hel] at hc
      cases hc
    exact ⟨tag, as, (htree.content? hne).trans hel, ht⟩

theorem writes_attribute {name : String} (hi : s.IsElement i) (hname : Text.lowered name = name)
    (t : String) : ∃ s', s.setAttribute i name t = .ok s' ∧
      (Target.attributeNamed name).Writes i t s s' := by
  obtain ⟨tag, as, hel⟩ := hi
  have hset : s.setAttribute i name t
      = .ok (s.mapContent i fun _ => .element tag (as.insert name t)) := by
    rw [setAttribute, hel, hname]
  have htree : Retouched (· = i) s (s.mapContent i fun _ => .element tag (as.insert name t)) :=
    retouched_mapContent hel rfl
  have hi : (s.mapContent i fun _ => .element tag (as.insert name t)).content? i
      = some (.element tag (as.insert name t)) := by
    rw [content?_mapContent, if_pos rfl, hel]
    rfl
  refine ⟨_, hset, ⟨htree, fun j event => listeners_mapContent _ _ j event,
    ⟨tag, _, hi, by rw [Entries.get?_insert, if_pos rfl]⟩, fun j part hj => ?_⟩⟩
  cases part with
  | content =>
    obtain ⟨hj, c, hc, ht⟩ := hj
    have hne : c ≠ i := by
      rintro rfl
      rw [hel] at ht
      cases ht
    exact ⟨htree.isElement hj, c, (htree.children j).trans hc, (htree.content? hne).trans ht⟩
  | attributeNamed other =>
    obtain ⟨tag', as', hj, ht⟩ := hj
    by_cases hji : j = i
    · subst hji
      rw [hel] at hj
      cases hj
      refine ⟨tag, _, hi, ?_⟩
      rw [Entries.get?_insert]
      split
      · rfl
      · exact ht
    · exact ⟨tag', as', (htree.content? hji).trans hj, ht⟩

end Target

namespace Page

open Run Surface

variable {σ : Type} {p : Page σ}

theorem editSurface_setAttribute {i : Nat} {name value : String} {surface : Surface (Listener σ)}
    (h : p.surface.setAttribute i name value = .ok surface) :
    editSurface (.setAttribute i name value) p = .done () { p with surface } :=
  editSurface_done (by rw [Surface.apply, h, Surface.settle])

/-- Every element lets every attribute be taken away. -/
theorem editSurface_removeAttribute {i : Nat} {tag : String} {as : Entries String}
    (hi : p.surface.content? i = some (.element tag as)) (name : String) :
    editSurface (.removeAttribute i name) p
      = .done () { p with surface := p.surface.mapContent i fun _ => .element tag (as.erase name) } :=
  editSurface_done (by rw [Surface.apply, Surface.removeAttribute, hi]; rfl)

/-- A write into an open part of a node is done in place. -/
theorem writeTarget_of_open (hs : p.surface.Sound) {i : Nat} {target : Target}
    (h : target.Open p.surface i) (t : String) : ∃ surface,
      writeTarget i target t p = .done () { p with surface } ∧
        target.Writes i t p.surface surface := by
  cases target with
  | content =>
    obtain ⟨u, hu⟩ := h
    obtain ⟨s, hset, hwrites⟩ := Target.writes_content hs hu t
    have happly : p.surface.apply (.setText i t) = (.ok (), s) := hset
    exact ⟨s, editSurface_done happly, hwrites⟩
  | attributeNamed name =>
    obtain ⟨s, hset, hwrites⟩ := Target.writes_attribute h.1 h.2 t
    exact ⟨s, editSurface_setAttribute hset, hwrites⟩

end Page

end ReactiveView
