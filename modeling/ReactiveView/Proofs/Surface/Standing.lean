import ReactiveView.Proofs.Surface.Retouched
import ReactiveView.Proofs.Surface.Shows
import ReactiveView.Proofs.Surface.WellFormed
import ReactiveView.Template.Interpolation
/-!
# What stays where it was

While one part of a tree is worked on, the other parts stand as they were: the nodes there are what
they were and have the parents and children they had, whatever new nodes there are by now. So these
parts are read as before, be it by their contents or by the markup in their elements.

Results:
* `setText_changesIn`: where a text that is written changes the tree.
* `Intact.interpolation?`: an element interpolates what it did as long as all below it stands.
-/
namespace ReactiveView

namespace Surface

variable {ℓ : Type} {s s' s'' : Surface ℓ} {D D' : Nat → Prop} {i : Nat}

/-- A node is what it was, and stands where it stood. Its listeners may be others. -/
structure Stands (s s' : Surface ℓ) (i : Nat) : Prop where
  content : s'.content? i = s.content? i
  children : s'.forest.children i = s.forest.children i
  parent : s'.forest.parent? i = s.forest.parent? i

/-- The same tree. -/
structure SameTree (s s' : Surface ℓ) : Prop where
  size : s'.size = s.size
  stands : ∀ i, Stands s s' i

/-- Nodes of `D` at most have changed, and there may be new ones. -/
structure ChangesIn (D : Nat → Prop) (s s' : Surface ℓ) : Prop where
  size : s.size ≤ s'.size
  stands : ∀ i, i < s.size → ¬D i → Stands s s' i

theorem Stands.refl (s : Surface ℓ) (i : Nat) : Stands s s i := ⟨rfl, rfl, rfl⟩

theorem Stands.trans (h : Stands s s' i) (h' : Stands s' s'' i) : Stands s s'' i :=
  ⟨h'.content.trans h.content, h'.children.trans h.children, h'.parent.trans h.parent⟩

theorem Stands.isElement_iff (h : Stands s s' i) : s'.IsElement i ↔ s.IsElement i := by
  unfold IsElement
  rw [h.content]

theorem SameTree.refl (s : Surface ℓ) : SameTree s s := ⟨rfl, .refl s⟩

theorem SameTree.changesIn (h : SameTree s s') (D : Nat → Prop) : ChangesIn D s s' :=
  ⟨Nat.le_of_eq h.size.symm, fun i _ _ => h.stands i⟩

namespace ChangesIn

theorem refl (D : Nat → Prop) (s : Surface ℓ) : ChangesIn D s s :=
  ⟨Nat.le_refl _, fun i _ _ => .refl s i⟩

theorem trans (h : ChangesIn D s s') (h' : ChangesIn D s' s'') : ChangesIn D s s'' where
  size := Nat.le_trans h.size h'.size
  stands i hi hD := (h.stands i hi hD).trans (h'.stands i (Nat.lt_of_lt_of_le hi h.size) hD)

theorem mono (h : ChangesIn D s s') (hD : ∀ i, D i → D' i) : ChangesIn D' s s' :=
  ⟨h.size, fun i hi hnot => h.stands i hi fun hd => hnot (hD i hd)⟩

end ChangesIn

theorem Retouched.changesIn (h : Retouched D s s') : ChangesIn D s s' where
  size := Nat.le_of_eq h.size.symm
  stands i _ hD := ⟨h.content? hD, h.children i, h.parent i⟩

/-! ## Texts written -/

theorem Overwrites.changesIn {k : Nat} {t : String} (h : Overwrites k t s s') :
    ChangesIn (· = k) s s' where
  size := Nat.le_of_eq h.size.symm
  stands j _ hj := ⟨by rw [h.content?, if_neg (Ne.symm hj)], h.children j, h.parent j⟩

theorem Supplants.changesIn {t : String} (h : Supplants i t s s') :
    ChangesIn (fun j => i = j ∨ j ∈ s.forest.children i) s s' where
  size := h.size ▸ Nat.le_succ _
  stands j hlt hj := by
    obtain ⟨hne, hmem⟩ := not_or.mp hj
    exact ⟨by rw [h.content?, if_neg (Nat.ne_of_lt hlt)], by rw [h.children, if_neg hne],
      by rw [h.parent, if_neg (Nat.ne_of_gt hlt), if_neg hmem]⟩

/-- A text that is written into an element stands alone in it. No other nodes than the element and
its children have changed, and all elements are what they were. -/
theorem setText_changesIn (hs : Sound s) (hi : s.IsElement i) (t : String) :
    ∃ s', s.setText i t = (.ok (), s') ∧ s'.ShowsText i t ∧
      ChangesIn (fun j => i = j ∨ j ∈ s.forest.children i) s s' ∧
      ∀ j tag as, s.content? j = some (.element tag as) →
        s'.content? j = some (.element tag as) := by
  obtain ⟨tag, as, hel⟩ := id hi
  cases h : s.loneText? i with
  | some k =>
    obtain ⟨s', hset, hover⟩ := setText_of_loneText hel h t
    obtain ⟨hchildren, -⟩ := loneText?_eq_some h
    refine ⟨s', hset, (hover.shows hs hi h).1, hover.changesIn.mono ?_,
      fun j tag as hj => hover.content?_element h hj⟩
    rintro j rfl
    exact .inr (hchildren ▸ List.mem_singleton_self j)
  | none =>
    obtain ⟨s', hset, hnew⟩ := setText_of_no_loneText hs hel rfl h t
    exact ⟨s', hset, (hnew.shows hs hi).1, hnew.changesIn, fun j tag as => hnew.content?_of_some⟩

/-! ## The markup of what stands -/

/-- The markup of a node does not depend on how far its levels are counted. -/
theorem fragmentsWithin_eq (hs : s.forest.Sound) {n m : Nat} (hn : s.size ≤ s.forest.depth i + n)
    (hm : s.size ≤ s.forest.depth i + m) (hi : s.forest.depth i < s.size) :
    s.fragmentsWithin n i = s.fragmentsWithin m i := by
  induction n generalizing i m with
  | zero => omega
  | succ n ih =>
    obtain ⟨m, rfl⟩ : ∃ k, m = k + 1 := ⟨m - 1, by omega⟩
    have hbelow : (s.forest.children i).flatMap (s.fragmentsWithin n)
        = (s.forest.children i).flatMap (s.fragmentsWithin m) := by
      rw [List.flatMap_def, List.flatMap_def]
      refine congrArg List.flatten (List.map_congr_left fun c hc => ?_)
      have hparent := (hs.linked.iff i c).mp hc
      have hdepth := Forest.depth_of_parent? hs hparent
      exact ih (by omega) (by omega) (Forest.depth_lt_size hs (Forest.lt_of_parent? hparent))
    rw [fragmentsWithin, fragmentsWithin, hbelow]

/-- What the whole content of a node interpolates, if it is an interpolation. -/
def interpolation? (s : Surface ℓ) (i : Nat) : Option String :=
  match s.innerMarkup i with
  | .ok markup => Template.interpolation? markup
  | .error _ => none

theorem interpolation?_of_innerMarkup {markup : String} (h : s.innerMarkup i = .ok markup) :
    s.interpolation? i = Template.interpolation? markup := by
  rw [interpolation?, h]

/-- An element that has the children it had, with all below it standing. Its attributes may be
others. -/
structure Intact (s s' : Surface ℓ) (i : Nat) : Prop where
  element : s'.IsElement i
  children : s'.forest.children i = s.forest.children i
  below : ∀ j, s.forest.Above i j → Stands s s' j

/-- An element interpolates what it did as long as it is intact. -/
theorem Intact.interpolation? (hs : WellFormed s) (hsize : s.size ≤ s'.size) (hi : s.IsElement i)
    (h : Intact s s' i) : s'.interpolation? i = s.interpolation? i := by
  have hfragments : (s'.forest.children i).flatMap s'.fragments
      = (s.forest.children i).flatMap s.fragments := by
    rw [h.children, List.flatMap_def, List.flatMap_def]
    refine congrArg List.flatten (List.map_congr_left fun c hc => ?_)
    have hparent := (hs.linked.iff i c).mp hc
    have hdepth := Forest.depth_lt_size hs.sound_forest (Forest.lt_of_parent? hparent)
    refine (fragmentsWithin_congr hs.linked _ fun j hj => ?_).trans
      (fragmentsWithin_eq hs.sound_forest (Nat.le_trans hsize (Nat.le_add_left _ _))
        (Nat.le_add_left _ _) hdepth)
    have hstands := h.below j (hj.of_parent? hparent)
    exact ⟨hstands.content, hstands.children⟩
  obtain ⟨tag, as, hi⟩ := hi
  obtain ⟨tag', as', hi'⟩ := h.element
  unfold Surface.interpolation? innerMarkup
  rw [children_of_content? hi, children_of_content? hi', Except.map, Except.map, hfragments]

/-- An element stays intact while only its attributes change. -/
theorem Intact.of_changesIn (hs : WellFormed s) (h : Intact s s' i) (hsize : s.size ≤ s'.size)
    (hchanges : ChangesIn (· = i) s' s'') (helement : s''.IsElement i)
    (hchildren : s''.forest.children i = s'.forest.children i) : Intact s s'' i where
  element := helement
  children := hchildren.trans h.children
  below j hj := by
    obtain ⟨q, hq⟩ := hj.exists_parent
    refine (h.below j hj).trans (hchanges.stands j ?_ ?_)
    · exact Nat.lt_of_lt_of_le (Forest.lt_of_parent? hq) hsize
    · rintro rfl
      exact hs.acyclic j hj

end Surface

end ReactiveView
