import ReactiveView.Proofs.Forest.Siblings
import ReactiveView.Proofs.Surface.Lists
/-!
# Writes in place

Attributes and listeners of an element, and a text that stands alone in an element, are written in
place: the tree stays what it is, and only the node that is written has another content afterwards.
So a walk that writes in place below one child of a node finds everything below the next child as it
was.

Results:
* `Retouched.sound`, `Retouched.innerMarkup`: what does not depend on the nodes that are written.
* `retouched_setAttribute`, `retouched_mapContent`, `listen_eq_ok`: what is written in place.
-/
namespace ReactiveView

namespace Surface

variable {ℓ : Type} {s s' s'' : Surface ℓ} {D D' : Nat → Prop}

theorem isLeaf_of_kind_eq {c d : Content} (h : c.kind = d.kind) : isLeaf c = isLeaf d := by
  cases c <;> cases d <;> first | rfl | simp [Content.kind] at h

/-- The markup of a node depends on the contents and the children at and below it. -/
theorem fragmentsWithin_congr (hs : s.forest.Linked) (levels : Nat) {i : Nat}
    (h : ∀ j, s.forest.Spans i j →
      s'.content? j = s.content? j ∧ s'.forest.children j = s.forest.children j) :
    s'.fragmentsWithin levels i = s.fragmentsWithin levels i := by
  induction levels generalizing i with
  | zero => rfl
  | succ levels ih =>
    obtain ⟨hcontent, hchildren⟩ := h i (.inl rfl)
    have hbelow : (s.forest.children i).flatMap (s'.fragmentsWithin levels)
        = (s.forest.children i).flatMap (s.fragmentsWithin levels) := by
      rw [List.flatMap_def, List.flatMap_def]
      refine congrArg List.flatten (List.map_congr_left fun c hc => ih fun j hj => ?_)
      exact h j (.inr (hj.of_parent? ((hs.iff i c).mp hc)))
    rw [Surface.fragmentsWithin, Surface.fragmentsWithin, hchildren, hbelow, hcontent]

/-- The same tree, with other contents and listeners at nodes of `D` at most. What kind of node a
node is stays the same. -/
structure Retouched (D : Nat → Prop) (s s' : Surface ℓ) : Prop where
  size : s'.size = s.size
  children : ∀ i, s'.forest.children i = s.forest.children i
  parent : ∀ i, s'.forest.parent? i = s.forest.parent? i
  kind : ∀ i, (s'.content? i).map Content.kind = (s.content? i).map Content.kind
  item : ∀ i, ¬D i → s'.forest.content? i = s.forest.content? i

namespace Retouched

theorem refl (D : Nat → Prop) (s : Surface ℓ) : Retouched D s s :=
  ⟨rfl, fun _ => rfl, fun _ => rfl, fun _ => rfl, fun _ _ => rfl⟩

theorem trans (h : Retouched D s s') (h' : Retouched D s' s'') : Retouched D s s'' where
  size := h'.size.trans h.size
  children i := (h'.children i).trans (h.children i)
  parent i := (h'.parent i).trans (h.parent i)
  kind i := (h'.kind i).trans (h.kind i)
  item i hi := (h'.item i hi).trans (h.item i hi)

theorem mono (h : Retouched D s s') (hD : ∀ i, D i → D' i) : Retouched D' s s' :=
  { h with item := fun i hi => h.item i fun hd => hi (hD i hd) }

theorem content? (h : Retouched D s s') {i : Nat} (hi : ¬D i) : s'.content? i = s.content? i := by
  unfold Surface.content?
  rw [h.item i hi]

theorem listeners (h : Retouched D s s') {i : Nat} (hi : ¬D i) (event : String) :
    s'.listeners i event = s.listeners i event := by
  unfold Surface.listeners
  rw [h.item i hi]

/-- A node that is there stays what it is. -/
theorem exists_content? (h : Retouched D s s') {i : Nat} {c : Content}
    (hc : s.content? i = some c) : ∃ d, s'.content? i = some d ∧ d.kind = c.kind := by
  have hkind := h.kind i
  rw [hc, Option.map_some] at hkind
  exact Option.map_eq_some_iff.mp hkind

theorem isElement (h : Retouched D s s') {i : Nat} (hi : s.IsElement i) : s'.IsElement i := by
  obtain ⟨tag, as, hi⟩ := hi
  obtain ⟨d, hd, hkind⟩ := h.exists_content? hi
  cases d with
  | element tag' as' => exact ⟨tag', as', hd⟩
  | document => exact absurd hkind (by simp [Content.kind])
  | text t => exact absurd hkind (by simp [Content.kind])
  | comment t => exact absurd hkind (by simp [Content.kind])

/-- An element with one text in it stays one, whatever the text. -/
theorem exists_showsText (h : Retouched D s s') {i : Nat} {t : String} (hi : s.ShowsText i t) :
    ∃ u, s'.ShowsText i u := by
  obtain ⟨hel, c, hchildren, hc⟩ := hi
  obtain ⟨d, hd, hkind⟩ := h.exists_content? hc
  cases d with
  | text u => exact ⟨u, h.isElement hel, c, (h.children i).trans hchildren, hd⟩
  | document => exact absurd hkind (by simp [Content.kind])
  | element tag as => exact absurd hkind (by simp [Content.kind])
  | comment t => exact absurd hkind (by simp [Content.kind])

theorem sound (h : Retouched D s s') (hs : Sound s) : Sound s' where
  linked :=
    ⟨fun i c => by rw [h.children, h.parent]; exact hs.linked.iff i c,
      fun i => by rw [h.children]; exact hs.linked.nodup i⟩
  leaf i c hc hleaf := by
    have hkind := (h.kind i).symm
    rw [hc, Option.map_some] at hkind
    obtain ⟨d, hd, hsame⟩ := Option.map_eq_some_iff.mp hkind
    rw [h.children]
    exact hs.leaf i d hd ((isLeaf_of_kind_eq hsame).trans hleaf)

theorem children_eq (h : Retouched D s s') (i : Nat) :
    Surface.children s' i = Surface.children s i := by
  have hkind := h.kind i
  unfold Surface.children Surface.content
  rw [h.children]
  cases hc : s.content? i with
  | none =>
    rw [hc, Option.map_none, Option.map_eq_none_iff] at hkind
    rw [hkind]
  | some c =>
    obtain ⟨d, hd, -⟩ := h.exists_content? hc
    rw [hd]
    rfl

/-- The markup of a node does not depend on what is written elsewhere. -/
theorem fragmentsWithin (h : Retouched D s s') (hs : Sound s) (levels : Nat) {i : Nat}
    (hi : ∀ j, s.forest.Spans i j → ¬D j) :
    s'.fragmentsWithin levels i = s.fragmentsWithin levels i :=
  fragmentsWithin_congr hs.linked levels fun j hj => ⟨h.content? (hi j hj), h.children j⟩

/-- The markup in a node does not depend on what is written at the node or elsewhere. -/
theorem innerMarkup (h : Retouched D s s') (hs : Sound s) {i : Nat}
    (hi : ∀ j, s.forest.Above i j → ¬D j) : s'.innerMarkup i = s.innerMarkup i := by
  have hchildren : Surface.children s i = .ok (s.forest.children i) ∨
      ∃ e, Surface.children s i = .error e := by
    cases hc : s.content? i with
    | none => exact .inr ⟨_, by rw [Surface.children, Surface.content, hc]; rfl⟩
    | some c => exact .inl (children_of_content? hc)
  unfold Surface.innerMarkup
  rw [h.children_eq]
  rcases hchildren with hok | ⟨e, herror⟩
  · rw [hok]
    refine congrArg (fun fs => Except.ok (Markup.write fs)) ?_
    rw [List.flatMap_def, List.flatMap_def]
    refine congrArg List.flatten (List.map_congr_left fun c hc => ?_)
    rw [fragments, fragments, h.size]
    exact h.fragmentsWithin hs _ fun j hj =>
      hi j (hj.of_parent? ((hs.linked.iff i c).mp hc))
  · rw [herror]
    rfl

end Retouched

/-! ## What is written in place -/

/-- An item changed at one node. -/
theorem retouched_mapItem {i : Nat} {g : Item ℓ → Item ℓ}
    (hg : ∀ item, s.forest.content? i = some item → (g item).content.kind = item.content.kind) :
    Retouched (· = i) s ⟨s.forest.mapContent i g⟩ where
  size := Forest.size_mapContent i g
  children j := Forest.children_mapContent i g j
  parent j := Forest.parent?_mapContent i g j
  kind j := by
    simp only [content?, Forest.content?_mapContent]
    split
    · next heq =>
      subst heq
      cases hitem : s.forest.content? i with
      | none => rfl
      | some item => exact congrArg some (hg item hitem)
    · rfl
  item j hj := by rw [Forest.content?_mapContent, if_neg (Ne.symm hj)]

/-- A content that is written over by one of its kind. -/
theorem retouched_mapContent {i : Nat} {c d : Content} (hc : s.content? i = some c)
    (hd : d.kind = c.kind) : Retouched (· = i) s (s.mapContent i fun _ => d) := by
  refine retouched_mapItem fun item hitem => ?_
  rw [content?, hitem] at hc
  cases hc
  exact hd

theorem retouched_removeAttribute {i : Nat} {name : String}
    (h : s.removeAttribute i name = .ok s') : Retouched (· = i) s s' := by
  obtain rfl | ⟨tag, attributes, hi, rfl⟩ := removeAttribute_eq_ok h
  · exact .refl _ s'
  · exact retouched_mapContent hi rfl

theorem retouched_setAttribute {i : Nat} {name value : String}
    (h : s.setAttribute i name value = .ok s') : Retouched (· = i) s s' := by
  obtain ⟨tag, attributes, hi, rfl⟩ := setAttribute_eq_ok h
  exact retouched_mapContent hi rfl

/-- A listener is put on one node, behind those that the node has for its event. -/
theorem listen_eq_ok {i : Nat} {event : String} {l : ℓ} (h : s.listen i event l = .ok s') :
    Retouched (· = i) s s' ∧ ∀ ls, s.listeners i event = .ok ls →
      s'.listeners i event = .ok (ls ++ [l]) ∧
      ∀ other, other ≠ event → s'.listeners i other = s.listeners i other := by
  obtain rfl := eq_of_listen h
  refine ⟨retouched_mapItem fun _ _ => rfl, fun ls hls => ?_⟩
  unfold listeners at hls ⊢
  simp only [Forest.content?_mapContent, if_true]
  cases hitem : s.forest.content? i with
  | none =>
    rw [hitem] at hls
    cases hls
  | some item =>
    rw [hitem] at hls
    cases hls
    refine ⟨by simp, fun other hother => ?_⟩
    have hne : (event == other) = false := beq_eq_false_iff_ne.mpr (Ne.symm hother)
    simp [hne]

/-- The value of an attribute that is there and not blank. -/
def marked? (s : Surface ℓ) (i : Nat) (name : String) : Option String :=
  match s.attributeValue i name with
  | .ok (some text) => if (Text.trim text.toList).isEmpty then none else some text
  | _ => none

theorem Retouched.marked? (h : Retouched D s s') {i : Nat} (hi : ¬D i) (name : String) :
    s'.marked? i name = s.marked? i name := by
  unfold Surface.marked? attributeValue content
  rw [h.content? hi]

end Surface

end ReactiveView
