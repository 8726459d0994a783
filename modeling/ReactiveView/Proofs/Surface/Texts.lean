import ReactiveView.Proofs.Forest.Acyclic
import ReactiveView.Proofs.Surface.Sound
/-!
# Texts written into nodes

A document or an element takes any text. Where a text stands alone in the node, it is written over
in place; otherwise a new text comes in place of all children, which stay as they are, but without a
parent. Either way there is one text alone in the node afterwards, and the lone texts of other nodes
are where they were.

Results:
* `setText_of_loneText`, `setText_of_no_loneText`: the two ways to write, node by node.
* `loneText?_setText`, `size_setText`: the lone texts and the size after a write.
-/
namespace ReactiveView.Surface

variable {ℓ : Type} {s s' : Surface ℓ} {i : Nat} {c : Content}

/-- One node has another text, and nothing else is different. -/
structure Overwrites (k : Nat) (t : String) (s s' : Surface ℓ) : Prop where
  size : s'.size = s.size
  item : ∀ j, s'.forest.content? j = if k = j
    then (s.forest.content? j).map fun item => { item with content := .text t }
    else s.forest.content? j
  children : ∀ j, s'.forest.children j = s.forest.children j
  parent : ∀ j, s'.forest.parent? j = s.forest.parent? j

/-- A new text is the only child of a node, whose former children have no parent any more. Nothing
else is different. -/
structure Supplants (i : Nat) (t : String) (s s' : Surface ℓ) : Prop where
  size : s'.size = s.size + 1
  item : ∀ j, s'.forest.content? j = if j = s.size then some ⟨.text t, []⟩ else s.forest.content? j
  children : ∀ j, s'.forest.children j = if i = j then [s.size] else s.forest.children j
  parent : ∀ j, s'.forest.parent? j = if s.size = j then some i
    else if j ∈ s.forest.children i then none else s.forest.parent? j

theorem Overwrites.content? {k : Nat} {t : String} (h : Overwrites k t s s') (j : Nat) :
    s'.content? j = if k = j then (s.content? j).map fun _ => .text t else s.content? j := by
  unfold Surface.content?
  rw [h.item]
  split
  · cases s.forest.content? j <;> rfl
  · rfl

theorem Supplants.content? {t : String} (h : Supplants i t s s') (j : Nat) :
    s'.content? j = if j = s.size then some (.text t) else s.content? j := by
  unfold Surface.content?
  rw [h.item]
  split <;> rfl

/-! ## Lone texts -/

theorem loneText?_eq_some_iff {k : Nat} : s.loneText? i = some k ↔
    s.forest.children i = [k] ∧ ∃ u, s.content? k = some (.text u) := by
  constructor
  · exact loneText?_eq_some
  · rintro ⟨hchildren, u, hk⟩
    simp only [loneText?, hchildren, hk]

/-! ## The two ways to write -/

theorem overwrites_mapContent (s : Surface ℓ) (k : Nat) (t : String) :
    Overwrites k t s (s.mapContent k fun _ => .text t) where
  size := size_mapContent k _
  item := Forest.content?_mapContent k _
  children := Forest.children_mapContent k _
  parent := Forest.parent?_mapContent k _

/-- A text that stands alone is written over. -/
theorem setText_of_loneText {k : Nat} (hi : s.content? i = some c) (h : s.loneText? i = some k)
    (t : String) : ∃ s', s.setText i t = (.ok (), s') ∧ Overwrites k t s s' :=
  ⟨_, by simp only [setText, hi, h], overwrites_mapContent s k t⟩

/-- The surface with a new text, which stands alone, and with the children of a node taken out. -/
theorem append_cleared (hs : Sound s) (hi : s.content? i = some c) (hc : isLeaf c = false)
    (t : String) :
    let cleared : Surface ℓ := ⟨(s.push (.text t)).forest.detachChildren i⟩
    cleared.append i s.size = .ok (cleared.attach i s.size) ∧
      Supplants i t s (cleared.attach i s.size) := by
  intro cleared
  have hlt : i < s.size := lt_of_content? hi
  have hsound : Sound cleared := sound_detachChildren (sound_push hs _) i
  have hsize : cleared.size = s.size + 1 :=
    (Forest.size_detachChildren i).trans (Forest.size_push _)
  have hcontent : ∀ j, cleared.content? j = if j = s.size then some (.text t) else s.content? j :=
    fun j => (content?_detachChildren i j).trans (content?_push _ j)
  have hpushed : ∀ j, (s.push (.text t)).forest.children j = s.forest.children j :=
    Forest.children_push _
  have hchildren : ∀ j, cleared.forest.children j = if i = j then [] else s.forest.children j :=
    fun j => (Forest.children_detachChildren i j).trans (by rw [hpushed])
  have hparent : ∀ j, cleared.forest.parent? j
      = if j ∈ s.forest.children i then none else s.forest.parent? j := fun j => by
    rw [← hpushed]
    exact (Forest.parent?_detachChildren i j).trans (by rw [push, Forest.parent?_push])
  -- the new text has no parent before it is put in, and nothing is below it
  have htop : cleared.forest.parent? s.size = none := by
    rw [hparent]
    split
    · rfl
    · exact Forest.parent?_of_size_le (Nat.le_refl _)
  have hfree : cleared.forest.isAtOrAbove s.size i = false := by
    refine Forest.isAtOrAbove_eq_false hsound.linked ?_ (Nat.ne_of_lt hlt)
    exact hsound.leaf _ _ ((hcontent s.size).trans (if_pos rfl)) rfl
  refine ⟨?_, (Forest.size_attach i s.size).trans hsize, fun j => ?_, fun j => ?_, fun j => ?_⟩
  · have hi' : cleared.content? i = some c := by rw [hcontent, if_neg (Nat.ne_of_lt hlt), hi]
    have hnew : cleared.content? s.size = some (.text t) := by rw [hcontent, if_pos rfl]
    unfold append
    rw [hi', hnew, hfree]
    cases c with
    | document => rfl
    | element => rfl
    | text => cases hc
    | comment => cases hc
  · refine (Forest.content?_attach i s.size j).trans ((Forest.content?_detachChildren i j).trans ?_)
    exact Forest.content?_push _ j
  · have hlt' : i < cleared.forest.size := Nat.lt_of_lt_of_eq (Nat.lt_succ_of_lt hlt) hsize.symm
    refine (Forest.children_attach_of_top hsound.linked hlt' htop j).trans ?_
    rw [hchildren]
    split <;> rfl
  · have hlt' : s.size < cleared.forest.size := Nat.lt_of_lt_of_eq (Nat.lt_succ_self _) hsize.symm
    refine (Forest.parent?_attach hlt' i j).trans ?_
    rw [hparent]

/-- Where no text stands alone, a new one comes in place of all children. -/
theorem setText_of_no_loneText (hs : Sound s) (hi : s.content? i = some c)
    (hc : isLeaf c = false) (h : s.loneText? i = none) (t : String) :
    ∃ s', s.setText i t = (.ok (), s') ∧ Supplants i t s s' := by
  obtain ⟨happend, hsupplants⟩ := append_cleared hs hi hc t
  refine ⟨_, ?_, hsupplants⟩
  simp only [setText, hi, h]
  rw [happend]

/-! ## Lone texts after a write -/

theorem Overwrites.loneText? {k : Nat} {t : String} (h : Overwrites k t s s')
    (hk : s.loneText? i = some k) (j : Nat) : s'.loneText? j = s.loneText? j := by
  obtain ⟨-, u, hu⟩ := loneText?_eq_some hk
  refine Option.ext fun m => ?_
  rw [loneText?_eq_some_iff, loneText?_eq_some_iff, h.children, h.content?]
  refine and_congr_right fun _ => ?_
  split
  · next heq => simp [← heq, hu]
  · rfl

theorem Supplants.loneText? {t : String} (hs : Sound s) (h : Supplants i t s s') (j : Nat) :
    s'.loneText? j = if i = j then some s.size else s.loneText? j := by
  refine Option.ext fun m => ?_
  split
  · next heq =>
    rw [loneText?_eq_some_iff, h.children, if_pos heq, h.content?, Option.some_inj]
    refine ⟨fun hm => (List.singleton_inj.mp hm.1), ?_⟩
    rintro rfl
    exact ⟨rfl, t, if_pos rfl⟩
  · next hne =>
    rw [loneText?_eq_some_iff, loneText?_eq_some_iff, h.children, if_neg hne, h.content?]
    refine and_congr_right fun hm => ?_
    have hmem : m ∈ s.forest.children j := hm ▸ List.mem_singleton_self m
    have hlt : m < s.size := Forest.lt_of_parent? ((hs.linked.iff j m).mp hmem)
    rw [if_neg (Nat.ne_of_lt hlt)]

/-- After a write the lone text of the node is the one that it had or else the new one, and those of
the other nodes are what they were. -/
theorem loneText?_setText (hs : Sound s) (hi : s.content? i = some c) (hc : isLeaf c = false)
    (t : String) (j : Nat) : (s.setText i t).2.loneText? j
      = if i = j then some ((s.loneText? i).getD s.size) else s.loneText? j := by
  cases h : s.loneText? i with
  | some k =>
    obtain ⟨s', hset, hover⟩ := setText_of_loneText hi h t
    rw [hset, hover.loneText? h]
    split
    · next heq => rw [← heq, h, Option.getD_some]
    · rfl
  | none =>
    obtain ⟨s', hset, hnew⟩ := setText_of_no_loneText hs hi hc h t
    rw [hset, hnew.loneText? hs, Option.getD_none]

/-- A write makes a node at most, and none where a text stands alone. -/
theorem size_setText (hs : Sound s) (hi : s.content? i = some c) (hc : isLeaf c = false)
    (t : String) : (s.setText i t).2.size
      = if (s.loneText? i).isSome then s.size else s.size + 1 := by
  cases h : s.loneText? i with
  | some k =>
    obtain ⟨s', hset, hover⟩ := setText_of_loneText hi h t
    rw [hset]
    exact hover.size
  | none =>
    obtain ⟨s', hset, hnew⟩ := setText_of_no_loneText hs hi hc h t
    rw [hset]
    exact hnew.size

end ReactiveView.Surface
