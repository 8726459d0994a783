import ReactiveView.Proofs.Markup.Writable
import ReactiveView.Proofs.Surface.Shows
/-!
# What every content satisfies

Edits bring few contents into a surface: a document that is blank, texts, the comments and elements
of markup that was read, and elements with an attribute more or less. A property of contents that
all these have is one that every content of a surface keeps, the nodes outside the document
included. Only a written attribute may break it, and then by its name or its value alone.

Results:
* `throughout_apply`: what one edit keeps, also one that refuses.
* `throughout_of_reached`: what no edit can break holds of every surface that can come about.
-/
namespace ReactiveView

/-- A property that contents have from the start, and that taking attributes away does not break. -/
structure Content.Stable (P : Content → Prop) : Prop where
  document : P .document
  text : ∀ t, P (.text t)
  comment : ∀ t, Markup.IsComment t → P (.comment t)
  element : ∀ tag attributes, Markup.IsTag tag → Markup.AreAttributes attributes →
    P (.element tag attributes)
  erase : ∀ tag attributes name, P (.element tag attributes) →
    P (.element tag (attributes.erase name))

namespace Surface

variable {ℓ : Type} {s s' : Surface ℓ} {P : Content → Prop}

/-- All contents have a property. -/
def Throughout (P : Content → Prop) (s : Surface ℓ) : Prop := ∀ i c, s.content? i = some c → P c

/-- An edit that breaks a property with no attribute that it writes. -/
def Edit.Spares (P : Content → Prop) : Edit → Prop
  | .setAttribute _ name value => ∀ tag attributes, P (.element tag attributes) →
    P (.element tag (attributes.insert (Text.lowered name) value))
  | _ => True

/-! ## What edits are made of -/

theorem throughout_blank (hP : Content.Stable P) : Throughout P (blank : Surface ℓ) := by
  intro i c h
  rw [blank, content?, Forest.content?_push] at h
  split at h
  · cases h
    exact hP.document
  · cases h

theorem throughout_push (hs : Throughout P s) {c : Content} (hc : P c) :
    Throughout P (s.push c) := by
  intro i d hd
  rw [content?_push] at hd
  split at hd
  · cases hd
    exact hc
  · exact hs i d hd

theorem throughout_attach (hs : Throughout P s) (p c : Nat) : Throughout P (s.attach p c) := by
  intro i d hd
  rw [content?_attach] at hd
  exact hs i d hd

theorem throughout_detachChildren (hs : Throughout P s) (i : Nat) :
    Throughout P (⟨s.forest.detachChildren i⟩ : Surface ℓ) := by
  intro j d hd
  rw [content?_detachChildren] at hd
  exact hs j d hd

theorem throughout_rewrite (hs : Throughout P s) (i : Nat) {d : Content} (hd : P d) :
    Throughout P (s.mapContent i fun _ => d) := by
  intro j e he
  rw [content?_mapContent] at he
  split at he
  · obtain ⟨_, -, rfl⟩ := Option.map_eq_some_iff.mp he
    exact hd
  · exact hs j e he

mutual

theorem throughout_insert (hP : Content.Stable P) (s : Surface ℓ) (hs : Throughout P s)
    (f : Fragment) (hf : Markup.Writable f) : Throughout P (s.insert f) := by
  cases hf with
  | text t =>
    rw [insert]
    exact throughout_push hs (hP.text t)
  | comment ht =>
    rw [insert]
    exact throughout_push hs (hP.comment _ ht)
  | @element tag attributes children htag hattributes hchildren =>
    rw [insert]
    have hnew : P (.element tag attributes) := hP.element tag attributes htag hattributes
    exact throughout_insertUnder hP _ (throughout_push hs hnew) s.size children hchildren

theorem throughout_insertUnder (hP : Content.Stable P) (s : Surface ℓ) (hs : Throughout P s)
    (p : Nat) (fs : List Fragment) (hfs : ∀ f ∈ fs, Markup.Writable f) :
    Throughout P (insertUnder p s fs) := by
  cases fs with
  | nil =>
    rw [insertUnder]
    exact hs
  | cons f rest =>
    rw [insertUnder]
    obtain ⟨hf, hrest⟩ := List.forall_mem_cons.mp hfs
    exact throughout_insertUnder hP _
      (throughout_attach (throughout_insert hP s hs f hf) p s.size) p rest hrest

end

theorem throughout_insertAll (hP : Content.Stable P) (hs : Throughout P s) {fs : List Fragment}
    (hfs : ∀ f ∈ fs, Markup.Writable f) : Throughout P (s.insertAll fs).2 := by
  induction fs generalizing s with
  | nil => exact hs
  | cons f rest ih =>
    obtain ⟨hf, hrest⟩ := List.forall_mem_cons.mp hfs
    exact ih (throughout_insert hP s hs f hf) hrest

theorem throughout_append (hs : Throughout P s) {p c : Nat} (h : s.append p c = .ok s') :
    Throughout P s' := by
  obtain ⟨rfl, -⟩ := append_eq_ok h
  exact throughout_attach hs p c

/-! ## Edits -/

theorem partsKeep_throughout (hP : Content.Stable P) (hs : Throughout P s) {e : Edit}
    (he : e.Spares P) : PartsKeep (Throughout P) s e where
  insert _ _ hread := throughout_insertAll hP hs fun f hf =>
    Markup.writable_of_sound (Markup.sound_of_read hread f hf)
  append _ _ _ _ h₁ h := throughout_append h₁ h
  detach _ i h₁ := throughout_detachChildren h₁ i
  push t := throughout_push hs (hP.text t)
  text k _ t _ := throughout_rewrite hs k (hP.text t)
  set i _ _ tag attributes heq hi := by
    subst heq
    exact throughout_rewrite hs i (he tag attributes (hs i _ hi))
  erase i name tag attributes hi :=
    throughout_rewrite hs i (hP.erase tag attributes name (hs i _ hi))

/-- What an edit does not break it keeps, also if it refuses. -/
theorem throughout_apply (hP : Content.Stable P) (hs : Throughout P s) {e : Edit}
    (he : e.Spares P) : Throughout P (s.apply e).2 :=
  apply_keeps (partsKeep_throughout hP hs he) hs

theorem throughout_load (hP : Content.Stable P) (hs : Throughout P s) {source : String}
    (h : s.load source = .ok s') : Throughout P s' :=
  load_keeps (partsKeep_throughout hP hs (e := .load source) trivial) h

theorem throughout_listen (hs : Throughout P s) {i : Nat} {event : String} {l : ℓ}
    (h : s.listen i event l = .ok s') : Throughout P s' :=
  fun j c hc => hs j c (((listen_keeps h).1 j).symm.trans hc)

/-- What no edit can break holds of every content of a surface that can come about. -/
theorem throughout_of_reached (hP : Content.Stable P) (hspares : ∀ e : Edit, e.Spares P)
    (h : Reached s) : Throughout P s := by
  induction h with
  | blank => exact throughout_blank hP
  | step _ hstep ih =>
    cases hstep with
    | edit e => exact throughout_apply hP ih (hspares e)
    | listen hl => exact throughout_listen ih hl

end Surface

end ReactiveView
