import ReactiveView.Proofs.Surface.Retouched
import ReactiveView.Proofs.Surface.Throughout
/-!
# Attributes by name

An attribute is written under its name in lower case, but it is read and taken away by its exact
name. Markup gives attributes names in lower case too, so no attribute of a surface has another
name: what was written under a name with a capital letter is there, but this name does not find it.

Results:
* `attributeValue_eq_none`: a name with a capital letter in it finds nothing.
* `setAttribute_sets`, `removeAttribute_drops`: what becomes of the attributes of an element.
-/
namespace ReactiveView

/-- The names of the attributes are in lower case. -/
def Content.IsLowered : Content → Prop
  | .element _ attributes => ∀ name ∈ Entries.keys attributes, Text.lowered name = name
  | .document | .text _ | .comment _ => True

theorem Content.stable_isLowered : Content.Stable Content.IsLowered where
  document := trivial
  text _ := trivial
  comment _ _ := trivial
  element _ _ _ hattributes name hname := by
    obtain ⟨a, ha, rfl⟩ := List.mem_map.mp hname
    exact (hattributes.name a ha).lower
  erase _ attributes name h other hother := by
    rw [Entries.keys_erase] at hother
    exact h other (List.mem_filter.mp hother).1

namespace Surface

variable {ℓ : Type} {s s' : Surface ℓ} {i : Nat} {name : String}

theorem Edit.spares_isLowered (e : Edit) : e.Spares Content.IsLowered := by
  cases e with
  | setAttribute j name value =>
    intro tag attributes h other hother
    rw [Entries.keys_insert] at hother
    split at hother
    · exact h other hother
    · rcases List.mem_append.mp hother with hold | hnew
      · exact h other hold
      · rw [List.mem_singleton.mp hnew]
        exact Text.lowered_lowered name
  | _ => trivial

/-! ## Attributes read -/

theorem attributeValue_of_content? {tag : String} {attributes : Entries String}
    (hi : s.content? i = some (.element tag attributes)) (name : String) :
    s.attributeValue i name = .ok (attributes.get? name) := by
  rw [attributeValue, content_of_content? hi]
  rfl

theorem attributeNames_of_content? {tag : String} {attributes : Entries String}
    (hi : s.content? i = some (.element tag attributes)) :
    s.attributeNames i = .ok attributes.keys := by
  rw [attributeNames, content_of_content? hi]
  rfl

/-- The text of an attribute; one that is not there counts as empty. -/
def attributeText (s : Surface ℓ) (i : Nat) (name : String) : String :=
  match s.attributeValue i name with
  | .ok value => value.getD ""
  | .error _ => ""

/-- No attribute of a surface that can come about has a name with a capital letter. -/
theorem attributeValue_eq_none (h : Reached s) (hi : s.IsElement i)
    (hname : Text.lowered name ≠ name) : s.attributeValue i name = .ok none := by
  obtain ⟨tag, attributes, hi⟩ := hi
  have hlowered : ∀ name ∈ Entries.keys attributes, Text.lowered name = name :=
    throughout_of_reached Content.stable_isLowered Edit.spares_isLowered h i _ hi
  have hnone : Entries.get? attributes name = none :=
    (Entries.get?_eq_none_iff attributes name).mpr fun hmem => hname (hlowered name hmem)
  rw [attributeValue_of_content? hi, hnone]

/-! ## Attributes written and taken away -/

/-- At most the attributes of a node are different. -/
structure Redresses (i : Nat) (s s' : Surface ℓ) : Prop where
  tree : Retouched (· = i) s s'
  listeners : ∀ j event, s'.listeners j event = s.listeners j event
  tag : s'.tag i = s.tag i

/-- An attribute of a node was written, under its name in lower case: in place if it was there, else
behind the others. The others have their values and places. -/
structure SetsAttribute (i : Nat) (name value : String) (s s' : Surface ℓ) : Prop
    extends Redresses i s s' where
  value : s'.attributeValue i (Text.lowered name) = .ok (some value)
  other : ∀ other, other ≠ Text.lowered name →
    s'.attributeValue i other = s.attributeValue i other
  names : ∃ names, s.attributeNames i = .ok names ∧ s'.attributeNames i
    = .ok (if Text.lowered name ∈ names then names else names ++ [Text.lowered name])

/-- An attribute of a node was taken away, by its exact name. The others have their values and their
order. -/
structure DropsAttribute (i : Nat) (name : String) (s s' : Surface ℓ) : Prop
    extends Redresses i s s' where
  value : s'.attributeValue i name = .ok none
  other : ∀ other, other ≠ name → s'.attributeValue i other = s.attributeValue i other
  names : ∃ names, s.attributeNames i = .ok names ∧
    s'.attributeNames i = .ok (names.filter (· ≠ name))

/-- An element written over by one with other attributes. -/
theorem redresses_rewrite {tag : String} {attributes : Entries String}
    (hi : s.content? i = some (.element tag attributes)) (attributes' : Entries String) :
    let s' := s.mapContent i fun _ => .element tag attributes'
    s'.content? i = some (.element tag attributes') ∧ Redresses i s s' := by
  intro s'
  have hnew : s'.content? i = some (.element tag attributes') := by
    rw [content?_mapContent, if_pos rfl, hi]
    rfl
  refine ⟨hnew, retouched_mapContent hi rfl, listeners_mapContent i _, ?_⟩
  rw [Surface.tag, Surface.tag, content_of_content? hi, content_of_content? hnew]
  rfl

/-- Every element takes every attribute. -/
theorem setAttribute_sets (hi : s.IsElement i) (name value : String) :
    ∃ s', s.apply (.setAttribute i name value) = (.ok (), s') ∧
      SetsAttribute i name value s s' := by
  obtain ⟨tag, attributes, hi⟩ := hi
  obtain ⟨hnew, hother⟩ := redresses_rewrite hi (attributes.insert (Text.lowered name) value)
  have hset : s.setAttribute i name value = .ok (s.mapContent i fun _ =>
      .element tag (attributes.insert (Text.lowered name) value)) := by
    simp only [setAttribute, hi]
  refine ⟨_, by rw [apply, hset, settle], hother, ?_, fun other hother => ?_,
    attributes.keys, attributeNames_of_content? hi, ?_⟩
  · rw [attributeValue_of_content? hnew, Entries.get?_insert, if_pos rfl]
  · rw [attributeValue_of_content? hnew, attributeValue_of_content? hi, Entries.get?_insert,
      if_neg hother]
  · rw [attributeNames_of_content? hnew, Entries.keys_insert]

/-- Every element lets every attribute be taken away. -/
theorem removeAttribute_drops (hi : s.IsElement i) (name : String) :
    ∃ s', s.apply (.removeAttribute i name) = (.ok (), s') ∧ DropsAttribute i name s s' := by
  obtain ⟨tag, attributes, hi⟩ := hi
  obtain ⟨hnew, hother⟩ := redresses_rewrite hi (attributes.erase name)
  have hremove : s.removeAttribute i name = .ok (s.mapContent i fun _ =>
      .element tag (attributes.erase name)) := by
    simp only [removeAttribute, hi]
  refine ⟨_, by rw [apply, hremove, settle], hother, ?_, fun other hother => ?_,
    attributes.keys, attributeNames_of_content? hi, ?_⟩
  · rw [attributeValue_of_content? hnew, Entries.get?_erase, if_pos rfl]
  · rw [attributeValue_of_content? hnew, attributeValue_of_content? hi, Entries.get?_erase,
      if_neg hother]
  · rw [attributeNames_of_content? hnew, Entries.keys_erase]

/-- What was written under a name is found under it if and only if the name is in lower case. -/
theorem SetsAttribute.found_iff {value : String} (hs' : Reached s') (hi : s.IsElement i)
    (h : SetsAttribute i name value s s') :
    s'.attributeValue i name = .ok (some value) ↔ Text.lowered name = name := by
  constructor
  · intro hfound
    by_contra hname
    have hnone := attributeValue_eq_none hs' (h.tree.isElement hi) hname
    rw [hfound] at hnone
    cases hnone
  · intro hname
    have hvalue := h.value
    rwa [hname] at hvalue

end Surface

end ReactiveView
