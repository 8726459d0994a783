import ReactiveView.Surface.Edit
/-!
# The parts of an edit

Whatever an edit is for, it is made of a few parts: fragments that were read become nodes, a node is
put at the end of the children of another, the children of a node are taken out, a text becomes a
node or is written over another one, an attribute is written or taken away. So a property of
surfaces that each of these keeps is kept by every edit, also by one that refuses half-way.

Results:
* `apply_keeps`: what all parts of an edit keep the edit keeps.
-/
namespace ReactiveView.Surface

variable {ℓ : Type} {s s' : Surface ℓ} {I : Surface ℓ → Prop}

/-- A property that the parts of an edit of a surface keep. Only a node that is put in and children
that are taken out may come behind other parts. -/
structure PartsKeep (I : Surface ℓ → Prop) (s : Surface ℓ) (e : Edit) : Prop where
  insert : ∀ source fs, Markup.read source = .ok fs → I (s.insertAll fs).2
  append : ∀ s₁ s₂ p c, I s₁ → s₁.append p c = .ok s₂ → I s₂
  detach : ∀ (s₁ : Surface ℓ) i, I s₁ → I ⟨s₁.forest.detachChildren i⟩
  push : ∀ t, I (s.push (.text t))
  text : ∀ k u t, s.content? k = some (.text u) → I (s.mapContent k fun _ => .text t)
  set : ∀ i name value tag attributes, e = .setAttribute i name value →
    s.content? i = some (.element tag attributes) →
    I (s.mapContent i fun _ => .element tag (attributes.insert (Text.lowered name) value))
  erase : ∀ i name tag attributes, s.content? i = some (.element tag attributes) →
    I (s.mapContent i fun _ => .element tag (attributes.erase name))

/-! ## What is done when an operation is done -/

theorem loneText?_eq_some {i only : Nat} (h : s.loneText? i = some only) :
    s.forest.children i = [only] ∧ ∃ t, s.content? only = some (.text t) := by
  unfold loneText? at h
  split at h
  · next c hchildren =>
    split at h
    · next t ht =>
      cases h
      exact ⟨hchildren, t, ht⟩
    · cases h
  · cases h

theorem parseFragment_eq_ok {source : String} {tops : List Nat}
    (h : s.parseFragment source = .ok (tops, s')) :
    ∃ fs, Markup.read source = .ok fs ∧ (s.insertAll fs).2 = s' := by
  obtain ⟨fs, hread, heq⟩ := map_eq_ok h
  exact ⟨fs, hread, congrArg Prod.snd heq⟩

theorem clear_eq_ok {i : Nat} (h : s.clear i = .ok s') : s' = ⟨s.forest.detachChildren i⟩ := by
  obtain ⟨c, -, heq⟩ := map_eq_ok h
  exact heq.symm

theorem setAttribute_eq_ok {i : Nat} {name value : String}
    (h : s.setAttribute i name value = .ok s') : ∃ tag attributes,
      s.content? i = some (.element tag attributes) ∧
      s' = s.mapContent i fun _ => .element tag (attributes.insert (Text.lowered name) value) := by
  unfold setAttribute at h
  split at h
  · cases h
  · next tag attributes hi =>
    cases h
    exact ⟨tag, attributes, hi, rfl⟩
  · cases h

theorem removeAttribute_eq_ok {i : Nat} {name : String} (h : s.removeAttribute i name = .ok s') :
    s' = s ∨ ∃ tag attributes, s.content? i = some (.element tag attributes) ∧
      s' = s.mapContent i fun _ => .element tag (attributes.erase name) := by
  unfold removeAttribute at h
  split at h
  · cases h
  · next tag attributes hi =>
    cases h
    exact .inr ⟨tag, attributes, hi, rfl⟩
  · cases h
    exact .inl rfl

theorem eq_of_listen {i : Nat} {event : String} {l : ℓ} (h : s.listen i event l = .ok s') :
    s' = ⟨s.forest.mapContent i fun item =>
      { item with listeners := item.listeners ++ [(event, l)] }⟩ := by
  obtain ⟨c, -, heq⟩ := map_eq_ok h
  exact heq.symm

theorem settle_eq_ok {r : Except Error (Surface ℓ)} {a : Unit} (h : s.settle r = (.ok a, s')) :
    r = .ok s' := by
  cases r with
  | ok s₁ =>
    cases h
    rfl
  | error e => cases h

/-! ## What edits keep -/

theorem settle_keeps (hs : I s) {r : Except Error (Surface ℓ)} (h : ∀ s', r = .ok s' → I s') :
    I (s.settle r).2 := by
  cases r with
  | ok s' => exact h s' rfl
  | error e => exact hs

theorem foldlM_append_keeps (happend : ∀ s₁ s₂ p c, I s₁ → s₁.append p c = .ok s₂ → I s₂)
    (hs : I s) {tops : List Nat}
    (h : tops.foldlM (fun s i => s.append document i) s = .ok s') : I s' := by
  induction tops generalizing s with
  | nil =>
    cases h
    exact hs
  | cons top rest ih =>
    rw [List.foldlM_cons] at h
    cases ha : s.append document top with
    | error e =>
      rw [ha] at h
      cases h
    | ok s₁ =>
      rw [ha] at h
      exact ih (happend s s₁ document top hs ha) h

theorem load_keeps {source : String} (hk : PartsKeep I s (.load source))
    (h : s.load source = .ok s') : I s' := by
  unfold load at h
  cases hparse : s.parseFragment source with
  | error e =>
    rw [hparse] at h
    cases h
  | ok r =>
    rw [hparse] at h
    obtain ⟨fs, hread, heq⟩ := parseFragment_eq_ok hparse
    exact foldlM_append_keeps hk.append (heq ▸ hk.insert source fs hread) h

theorem setText_keeps {i : Nat} {t : String} (hk : PartsKeep I s (.setText i t)) (hs : I s) :
    I (s.setText i t).2 := by
  unfold setText
  split
  · exact hs
  · split
    · next only honly =>
      obtain ⟨-, u, hu⟩ := loneText?_eq_some honly
      exact hk.text only u t hu
    · have hcleared : I ⟨(s.push (.text t)).forest.detachChildren i⟩ :=
        hk.detach _ i (hk.push t)
      simp only
      split
      · next s' h => exact hk.append _ s' i s.size hcleared h
      · exact hcleared

/-- What the parts of an edit keep the edit keeps, also if it refuses. -/
theorem apply_keeps {e : Edit} (hk : PartsKeep I s e) (hs : I s) : I (s.apply e).2 := by
  cases e with
  | load source => exact settle_keeps hs fun _ h => load_keeps hk h
  | fragment source =>
    simp only [apply]
    split
    · next hparse =>
      obtain ⟨fs, hread, rfl⟩ := parseFragment_eq_ok hparse
      exact hk.insert source fs hread
    · exact hs
  | append p c => exact settle_keeps hs fun s' h => hk.append s s' p c hs h
  | clear i =>
    refine settle_keeps hs fun _ h => ?_
    rw [clear_eq_ok h]
    exact hk.detach s i hs
  | setText i t => exact setText_keeps hk hs
  | setAttribute i name value =>
    refine settle_keeps hs fun _ h => ?_
    obtain ⟨tag, attributes, hi, rfl⟩ := setAttribute_eq_ok h
    exact hk.set i name value tag attributes rfl hi
  | removeAttribute i name =>
    refine settle_keeps hs fun _ h => ?_
    obtain rfl | ⟨tag, attributes, hi, rfl⟩ := removeAttribute_eq_ok h
    · exact hs
    · exact hk.erase i name tag attributes hi

end ReactiveView.Surface
