import ReactiveView.Proofs.Surface.Retouched
import ReactiveView.Proofs.Surface.WellFormed
import ReactiveView.Proofs.Template.Interpolation
import ReactiveView.Page.Basic
/-!
# What a document binds

Two kinds of elements bind an expression: those with the directive that binds their value both ways,
and those whose content is an interpolation. A part of a document couples an expression if nothing
else is bound in it.

A document that was read from markup has no listeners yet, because no edit adds one.

Results:
* `interpolation?_of_interpolates`: the markup of an interpolation is interpolated.
* `silent_of_ofMarkup`: a document that was read from markup has no listeners.
-/
namespace ReactiveView

namespace Surface

open Text

variable {ℓ : Type} {s s' : Surface ℓ} {i j : Nat} {source : String}

/-- No node has a listener. -/
def Silent (s : Surface ℓ) : Prop := ∀ i event ls, s.listeners i event = .ok ls → ls = []

/-- The elements that are reached from a node by going down through elements, the node included. -/
inductive Inside (s : Surface ℓ) : Nat → Nat → Prop
  | self {i : Nat} (hi : s.IsElement i) : Inside s i i
  | child {i c j : Nat} (hi : s.IsElement i) (hc : c ∈ s.forest.children i) (hj : Inside s c j) :
      Inside s i j

/-- An element whose content is an interpolation of an expression text, blanks apart. -/
def Interpolates (s : Surface ℓ) (i : Nat) (source : String) : Prop :=
  ∃ t inner, s.ShowsText i t ∧
    trim t.toList = Template.openMark ++ inner ++ Template.closeMark ∧
    trim inner = trim source.toList

/-- The text of the directive that binds an element both ways, if there is one. -/
def model? (s : Surface ℓ) (i : Nat) : Option String := s.marked? i Registry.modelName

/-- Whatever an element binds is an expression text, blanks apart. -/
structure Couples (s : Surface ℓ) (source : String) (i : Nat) : Prop where
  single : s.marked? i Registry.repeatName = none
  model : ∀ text, s.model? i = some text → trimmed text = trimmed source
  content : s.Interpolates i source ∨
    ∃ markup, s.innerMarkup i = .ok markup ∧ Template.interpolation? markup = none

theorem Inside.isElement (h : s.Inside i j) : s.IsElement i ∧ s.IsElement j := by
  induction h with
  | self hi => exact ⟨hi, hi⟩
  | child hi _ _ ih => exact ⟨hi, ih.2⟩

theorem Inside.spans (hs : Sound s) (h : s.Inside i j) : s.forest.Spans i j := by
  induction h with
  | self _ => exact .inl rfl
  | child _ hc _ ih => exact .inr (ih.of_parent? ((hs.linked.iff _ _).mp hc))

theorem Inside.child_of_parent? (hs : Sound s) {k : Nat} (h : s.Inside i j) (hk : s.IsElement k)
    (hparent : s.forest.parent? k = some j) : s.Inside i k := by
  induction h with
  | self hi => exact .child hi ((hs.linked.iff _ _).mpr hparent) (.self hk)
  | child hi hc _ ih => exact .child hi hc (ih hparent)

/-- A node is reached by going down through elements if all nodes on the way to it are elements. -/
theorem inside_iff (hs : Sound s) (hf : s.forest.Acyclic) : s.Inside i j ↔
    s.forest.Spans i j ∧ ∀ k, s.forest.Spans i k → s.forest.Spans k j → s.IsElement k := by
  constructor
  · intro h
    refine ⟨h.spans hs, ?_⟩
    induction h with
    | @self i hi =>
      intro k hik hki
      rcases hik with rfl | hik
      · exact hi
      · rcases hki with rfl | hki
        · exact hi
        · exact absurd (hik.trans hki) (hf i)
    | @child i c j hi hc hj ih =>
      intro k hik hkj
      have hparent := (hs.linked.iff i c).mp hc
      rcases hik with rfl | hik
      · exact hi
      · -- below `i` and on the way to `j`, the node is at the child of `i` or below it
        refine ih k ?_ hkj
        rcases hkj with rfl | hkj
        · exact hj.spans hs
        · rcases hj.spans hs with rfl | hcj
          · exact absurd hkj (hf.not_above_child hparent hik)
          · exact (hcj.comparable hkj).resolve_right (hf.not_above_child hparent hik)
  · rintro ⟨hspans, helement⟩
    rcases hspans with rfl | habove
    · exact .self (helement i (.inl rfl) (.inl rfl))
    · induction habove with
      | @parent j hp =>
        have hj := helement j (.inr (.parent hp)) (.inl rfl)
        exact (Inside.self (helement i (.inl rfl) (.inr (.parent hp)))).child_of_parent? hs hj hp
      | @step j k hp hik ih =>
        have hj := helement j (.inr (.step hp hik)) (.inl rfl)
        refine (ih fun m him hmk => helement m him (.inr ?_)).child_of_parent? hs hj hp
        rcases hmk with rfl | hmk
        · exact .parent hp
        · exact .step hp hmk

theorem listeners_of_silent (hs : s.Silent) (hi : s.IsElement i) (event : String) :
    s.listeners i event = .ok [] := by
  obtain ⟨tag, as, hi⟩ := hi
  obtain ⟨item, hitem, -⟩ := Option.map_eq_some_iff.mp hi
  have hls : s.listeners i event
      = .ok ((item.listeners.filter (·.1 == event)).map (·.2)) := by
    rw [Surface.listeners, hitem]
  rw [hls, hs i event _ hls]

/-- The markup of an interpolation is interpolated, if there is nothing to escape. -/
theorem interpolation?_of_interpolates (h : s.Interpolates i source)
    (hchars : ∀ c ∈ source.toList, c ≠ '&' ∧ c ≠ '<' ∧ c ≠ '>')
    (hmark : Template.hasMark source.toList = false) (hsome : trim source.toList ≠ []) :
    ∃ markup, s.innerMarkup i = .ok markup ∧
      Template.interpolation? markup = some (trimmed source) := by
  obtain ⟨t, inner, ht, hcontent, hinner⟩ := h
  refine ⟨_, innerMarkup_of_showsText ht, ?_⟩
  rw [Template.escapeText_of_marks hcontent hinner hchars, Template.interpolation?,
    String.toList_ofList, Template.interpolated?_of_marks hcontent hinner hmark hsome]
  rfl

/-! ## Listeners -/

/-- A small change adds no listener. -/
theorem silent_change (hs : s.Silent) (h : Change s s') : s'.Silent := by
  intro i event ls hls
  cases h with
  | push _ =>
    unfold listeners push at hls
    rw [Forest.content?_push] at hls
    split at hls
    · next item hitem =>
      split at hitem
      · cases hitem
        cases hls
        rfl
      · exact hs i event ls (by rw [listeners, hitem]; exact hls)
    · cases hls
  | attach _ _ _ _ _ =>
    refine hs i event ls ?_
    rwa [listeners, attach, Forest.content?_attach] at hls
  | detachChildren _ =>
    refine hs i event ls ?_
    rwa [listeners, Forest.content?_detachChildren] at hls
  | rewrite _ _ _ => exact hs i event ls ((listeners_mapContent _ _ i event).symm.trans hls)

theorem silent_changes (hs : s.Silent) (h : Changes s s') : s'.Silent := by
  induction h with
  | refl => exact hs
  | tail _ hlast ih => exact silent_change ih hlast

theorem silent_blank : (blank : Surface ℓ).Silent := by
  intro i event ls hls
  cases i with
  | zero =>
    cases hls
    rfl
  | succ i => cases hls

/-- A document that was read from markup has no listeners. -/
theorem silent_of_ofMarkup (h : ofMarkup source = .ok s) : s.Silent :=
  silent_changes silent_blank (changes_load wellFormed_blank h)

end Surface

end ReactiveView
