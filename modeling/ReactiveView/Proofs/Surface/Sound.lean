import ReactiveView.Proofs.Forest.Links
import ReactiveView.Proofs.Surface.Parts
/-!
# Sound surfaces

The invariant of surfaces: links agree at both ends, and texts and comments have no children. Every
edit keeps it, those that refuse included.

Results:
* `sound_apply`, `sound_listen`: one step keeps a surface sound.
* `sound_of_reached`: every surface that edits and listeners lead to from the blank one is sound.
-/
namespace ReactiveView.Surface

variable {ℓ : Type} {s s' : Surface ℓ}

/-- Texts and comments have no children. -/
def isLeaf : Content → Bool
  | .text _ => true
  | .comment _ => true
  | .document => false
  | .element .. => false

/-- Links agree at both ends, and leaves have no children. -/
structure Sound (s : Surface ℓ) : Prop where
  linked : s.forest.Linked
  leaf : ∀ i c, s.content? i = some c → isLeaf c → s.forest.children i = []

/-! ## Contents after a change -/

theorem lt_of_content? {i : Nat} {c : Content} (h : s.content? i = some c) : i < s.size := by
  obtain ⟨item, hitem, -⟩ := Option.map_eq_some_iff.mp h
  exact Forest.lt_of_content? hitem

theorem exists_content?_of_lt {i : Nat} (hi : i < s.size) : ∃ c, s.content? i = some c := by
  have hnode : s.forest.node? i = some s.forest.nodes[i] := Array.getElem?_eq_getElem hi
  exact ⟨_, by rw [content?, Forest.content?, hnode]; rfl⟩

@[simp] theorem size_push (c : Content) : (s.push c).size = s.size + 1 := Forest.size_push _

theorem content?_push (c : Content) (i : Nat) :
    (s.push c).content? i = if i = s.size then some c else s.content? i := by
  unfold content? push size
  rw [Forest.content?_push]
  split <;> rfl

@[simp] theorem size_attach (p c : Nat) : (s.attach p c).size = s.size := Forest.size_attach p c

@[simp] theorem content?_attach (p c i : Nat) : (s.attach p c).content? i = s.content? i := by
  unfold content? attach
  rw [Forest.content?_attach]

@[simp] theorem size_mapContent (i : Nat) (g : Content → Content) :
    (s.mapContent i g).size = s.size := Forest.size_mapContent _ _

theorem content?_mapContent (i : Nat) (g : Content → Content) (j : Nat) :
    (s.mapContent i g).content? j = if i = j then (s.content? j).map g else s.content? j := by
  unfold content? mapContent
  rw [Forest.content?_mapContent]
  split
  · rw [Option.map_map, Option.map_map]; rfl
  · rfl

/-! ## Soundness of each edit -/

theorem sound_blank : Sound (blank : Surface ℓ) where
  linked := Forest.linked_push Forest.linked_empty _
  leaf i c h hc := by
    unfold blank
    rw [Forest.children_push]
    simp [Forest.children, Forest.node?, Forest.empty]

theorem sound_push (hs : Sound s) (c : Content) : Sound (s.push c) where
  linked := Forest.linked_push hs.linked _
  leaf i d h hd := by
    rw [content?_push] at h
    simp only [push, Forest.children_push]
    split at h
    · next heq =>
      have : s.forest.node? i = none := Forest.node?_eq_none_of_le (Nat.le_of_eq heq.symm)
      simp [Forest.children, this]
    · exact hs.leaf i d h hd

theorem sound_attach (hs : Sound s) {p c : Nat} {d : Content} (hp : s.content? p = some d)
    (hd : isLeaf d = false) (hc : c < s.size) : Sound (s.attach p c) where
  linked := Forest.linked_attach hs.linked (lt_of_content? hp) hc
  leaf i e h he := by
    rw [content?_attach] at h
    simp only [attach, Forest.children_attach hs.linked (lt_of_content? hp)]
    have hi := hs.leaf i e h he
    split
    · next heq =>
      rw [← heq, hp] at h
      cases h
      rw [hd] at he
      cases he
    · rw [hi]; rfl

theorem sound_mapContent (hs : Sound s) {i : Nat} {g : Content → Content}
    (hg : ∀ c, s.content? i = some c → isLeaf (g c) → isLeaf c) : Sound (s.mapContent i g) where
  linked :=
    Forest.linked_mapContent hs.linked i fun item => { item with content := g item.content }
  leaf j c h hc := by
    simp only [mapContent, Forest.children_mapContent]
    rw [content?_mapContent] at h
    split at h
    · next heq =>
      subst heq
      obtain ⟨d, hd, rfl⟩ := Option.map_eq_some_iff.mp h
      exact hs.leaf i d hd (hg d hd hc)
    · exact hs.leaf j c h hc

theorem content?_detachChildren (i j : Nat) :
    Surface.content? ⟨s.forest.detachChildren i⟩ j = s.content? j := by
  unfold content?
  rw [Forest.content?_detachChildren]

theorem sound_detachChildren (hs : Sound s) (i : Nat) :
    Sound (⟨s.forest.detachChildren i⟩ : Surface ℓ) where
  linked := Forest.linked_detachChildren hs.linked i
  leaf j c h hc := by
    rw [content?_detachChildren] at h
    rw [Forest.children_detachChildren, hs.leaf j c h hc]
    split <;> rfl

theorem append_eq_ok {p c : Nat} (h : s.append p c = .ok s') : s' = s.attach p c ∧
    ∃ d e, s.content? p = some d ∧ isLeaf d = false ∧ s.content? c = some e := by
  unfold append at h
  split at h
  · cases h
  · cases h
  · cases h
  · cases h
  · next d e ht hm hp hc =>
    split at h
    · cases h
    · cases h
      refine ⟨rfl, d, e, hp, ?_, hc⟩
      cases d with
      | document => rfl
      | element => rfl
      | text t => exact absurd rfl (ht t)
      | comment t => exact absurd rfl (hm t)

theorem sound_append (hs : Sound s) {p c : Nat} (h : s.append p c = .ok s') : Sound s' := by
  obtain ⟨rfl, d, e, hp, hd, hc⟩ := append_eq_ok h
  exact sound_attach hs hp hd (lt_of_content? hc)

/-! ## Fragments made into nodes -/

/-- A surface with more nodes, in which those that were there are what they were. -/
structure Extends (s s' : Surface ℓ) : Prop where
  size : s.size ≤ s'.size
  content : ∀ i < s.size, s'.content? i = s.content? i

theorem Extends.refl (s : Surface ℓ) : Extends s s := ⟨Nat.le_refl _, fun _ _ => rfl⟩

theorem Extends.trans {s₁ s₂ s₃ : Surface ℓ} (h : Extends s₁ s₂) (h' : Extends s₂ s₃) :
    Extends s₁ s₃ where
  size := Nat.le_trans h.size h'.size
  content i hi := (h'.content i (Nat.lt_of_lt_of_le hi h.size)).trans (h.content i hi)

theorem extends_push (c : Content) : Extends s (s.push c) where
  size := by simp
  content i hi := by rw [content?_push, if_neg (Nat.ne_of_lt hi)]

theorem extends_attach (p c : Nat) : Extends s (s.attach p c) where
  size := by simp
  content i _ := content?_attach p c i

mutual

theorem insert_sound (s : Surface ℓ) (hs : Sound s) (f : Fragment) :
    Sound (s.insert f) ∧ Extends s (s.insert f) ∧ s.size < (s.insert f).size := by
  cases f with
  | text t =>
    rw [insert]
    exact ⟨sound_push hs _, extends_push _, by simp⟩
  | comment t =>
    rw [insert]
    exact ⟨sound_push hs _, extends_push _, by simp⟩
  | element tag attributes children =>
    rw [insert]
    have hnew : (s.push (.element tag attributes)).content? s.size = some (.element tag attributes) := by
      rw [content?_push, if_pos rfl]
    obtain ⟨h1, h2⟩ := insertUnder_sound _ (sound_push hs _) s.size _ hnew rfl children
    refine ⟨h1, (extends_push _).trans h2, ?_⟩
    have := h2.size
    simp only [size_push] at this
    omega

theorem insertUnder_sound (s : Surface ℓ) (hs : Sound s) (p : Nat) (d : Content)
    (hp : s.content? p = some d) (hd : isLeaf d = false) (fs : List Fragment) :
    Sound (insertUnder p s fs) ∧ Extends s (insertUnder p s fs) := by
  cases fs with
  | nil =>
    rw [insertUnder]
    exact ⟨hs, .refl s⟩
  | cons f rest =>
    rw [insertUnder]
    obtain ⟨h1, h2, h3⟩ := insert_sound s hs f
    have hp' : (s.insert f).content? p = some d := (h2.content p (lt_of_content? hp)).trans hp
    obtain ⟨h4, h5⟩ := insertUnder_sound _ (sound_attach h1 hp' hd h3) p d
      ((content?_attach p s.size p).trans hp') hd rest
    exact ⟨h4, (h2.trans (extends_attach p s.size)).trans h5⟩

end

theorem sound_insertAll (hs : Sound s) (fs : List Fragment) : Sound (s.insertAll fs).2 := by
  induction fs generalizing s with
  | nil => exact hs
  | cons f rest ih => exact ih (insert_sound s hs f).1

/-- A write to a content keeps the listeners. -/
theorem listeners_mapContent (i : Nat) (g : Content → Content) (j : Nat) (event : String) :
    (s.mapContent i g).listeners j event = s.listeners j event := by
  unfold listeners mapContent
  rw [Forest.content?_mapContent]
  by_cases hij : i = j
  · rw [if_pos hij]
    cases s.forest.content? j <;> rfl
  · rw [if_neg hij]

/-- A write of an attribute keeps the listeners. -/
theorem listeners_setAttribute (s : Surface ℓ) (i : Nat) (name value : String) (j : Nat)
    (event : String) :
    (s.apply (.setAttribute i name value)).2.listeners j event = s.listeners j event := by
  simp only [apply, setAttribute]
  split
  · rfl
  · exact listeners_mapContent _ _ j event
  · rfl

/-! ## Edits -/

theorem partsKeep_sound (hs : Sound s) (e : Edit) : PartsKeep Sound s e where
  insert _ fs _ := sound_insertAll hs fs
  append _ _ _ _ h₁ h := sound_append h₁ h
  detach _ i h₁ := sound_detachChildren h₁ i
  push t := sound_push hs (.text t)
  text k u t hk := by
    refine sound_mapContent (g := fun _ => .text t) hs fun c hc _ => ?_
    rw [hk] at hc
    cases hc
    rfl
  set _ _ _ _ _ _ _ := sound_mapContent hs fun _ _ hleaf => Bool.noConfusion hleaf
  erase _ _ _ _ _ := sound_mapContent hs fun _ _ hleaf => Bool.noConfusion hleaf

/-- An edit keeps a surface sound, also one that refuses. -/
theorem sound_apply (hs : Sound s) (e : Edit) : Sound (s.apply e).2 :=
  apply_keeps (partsKeep_sound hs e) hs

theorem sound_load (hs : Sound s) {source : String} (h : s.load source = .ok s') : Sound s' :=
  load_keeps (partsKeep_sound hs _) h

theorem sound_setText (hs : Sound s) (i : Nat) (t : String) : Sound (s.setText i t).2 :=
  sound_apply hs (.setText i t)

theorem sound_clear (hs : Sound s) {i : Nat} (h : s.clear i = .ok s') : Sound s' := by
  rw [clear_eq_ok h]
  exact sound_detachChildren hs i

theorem sound_setAttribute (hs : Sound s) {i : Nat} {name value : String}
    (h : s.setAttribute i name value = .ok s') : Sound s' := by
  obtain ⟨tag, attributes, hi, rfl⟩ := setAttribute_eq_ok h
  exact (partsKeep_sound hs _).set i name value tag attributes rfl hi

theorem sound_removeAttribute (hs : Sound s) {i : Nat} {name : String}
    (h : s.removeAttribute i name = .ok s') : Sound s' := by
  obtain rfl | ⟨tag, attributes, hi, rfl⟩ := removeAttribute_eq_ok h
  · exact hs
  · exact (partsKeep_sound hs (.removeAttribute i name)).erase i name tag attributes hi

/-! ## Listeners -/

/-- A listener changes neither contents nor children. -/
theorem listen_keeps {i : Nat} {event : String} {l : ℓ} (h : s.listen i event l = .ok s') :
    (∀ j, s'.content? j = s.content? j) ∧ ∀ j, s'.forest.children j = s.forest.children j := by
  obtain rfl := eq_of_listen h
  refine ⟨fun j => ?_, fun j => Forest.children_mapContent i _ j⟩
  simp only [content?, Forest.content?_mapContent]
  split
  · cases s.forest.content? j <;> rfl
  · rfl

theorem sound_listen (hs : Sound s) {i : Nat} {event : String} {l : ℓ}
    (h : s.listen i event l = .ok s') : Sound s' where
  linked := by
    obtain rfl := eq_of_listen h
    exact Forest.linked_mapContent hs.linked i fun item =>
      { item with listeners := item.listeners ++ [(event, l)] }
  leaf j c hc hleaf := by
    rw [(listen_keeps h).2]
    exact hs.leaf j c (((listen_keeps h).1 j).symm.trans hc) hleaf

/-! ## Surfaces that can come about -/

/-- One step of a surface: an edit, or a listener more. -/
inductive Step : Surface ℓ → Surface ℓ → Prop
  | edit (s : Surface ℓ) (e : Edit) : Step s (s.apply e).2
  | listen {s s' : Surface ℓ} {i : Nat} {event : String} {l : ℓ}
      (h : s.listen i event l = .ok s') : Step s s'

/-- The surfaces that steps lead to from the blank one. -/
inductive Reached : Surface ℓ → Prop
  | blank : Reached blank
  | step {s s' : Surface ℓ} (h : Reached s) (hstep : Step s s') : Reached s'

theorem reached_of_ofMarkup {source : String} (h : ofMarkup source = .ok s) : s.Reached := by
  have hload : (blank : Surface ℓ).load source = .ok s := h
  have hstep : ((blank : Surface ℓ).apply (.load source)).2 = s := by
    rw [apply, hload]
    rfl
  rw [← hstep]
  exact .step .blank (.edit _ _)

theorem sound_step (hs : Sound s) (h : Step s s') : Sound s' := by
  cases h with
  | edit e => exact sound_apply hs e
  | listen h => exact sound_listen hs h

/-- Every surface that can come about is sound. -/
theorem sound_of_reached (h : Reached s) : Sound s := by
  induction h with
  | blank => exact sound_blank
  | step _ hstep ih => exact sound_step ih hstep

end ReactiveView.Surface
