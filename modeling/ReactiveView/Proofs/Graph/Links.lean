import ReactiveView.Proofs.Forest.Acyclic
import ReactiveView.Proofs.Graph.Shape
/-!
# Links of observable graphs

A graph that is edited by hand need not follow any data: a node may be moved to wherever it is not
above. What stays is that the links are those of a forest: both ends agree, they lead between nodes
that are there, and no node is above itself. The check for circles only sees what is above the new
parent, so it needs the forest as much as it keeps it.

Results:
* `link_eq_ok`, `link_push`: when a node can be moved; a new node can be put under every other one.
* `relinked_of_link`: what moving a node changes.
* `sound_apply`, `Grown.sound`: every change keeps the links those of a forest, and grown graphs
  have such links.
* `links_of_built`: so has every graph that can be built.
-/
namespace ReactiveView.Graph

variable {ω : Type} {g g' : Graph ω}

/-- The links are those of a forest, and lead between nodes that are there. -/
structure Sound (g : Graph ω) : Prop where
  forest : g.forest.Sound
  ends : ∀ c p, g.forest.parent? c = some p → g.contains c ∧ g.contains p

/-- What moving a node below a parent changes: the parent of this node only, and the lists of
children of the old and the new parent, where it is taken out and becomes the last. -/
structure Relinked (g : Graph ω) (p c : Nat) (g' : Graph ω) : Prop where
  property : ∀ i, g'.property? i = g.property? i
  computed : g'.computed = g.computed
  size : g'.forest.size = g.forest.size
  parent : ∀ i, g'.forest.parent? i = if i = c then some p else g.forest.parent? i
  children : ∀ i, g'.forest.children i
    = if i = p then (g.forest.children i).erase c ++ [c] else (g.forest.children i).erase c

/-- The graphs that can be built: by changes of nodes and links, whether they are done or refused,
and by new observers. -/
inductive Built : Graph ω → Prop
  | bare : Built bare
  | apply {g : Graph ω} (h : Built g) (e : Edit) : Built (g.apply e).2
  | observe {g : Graph ω} (h : Built g) (id : Nat) (o : ω) : Built (g.settle (g.observe id o)).2

/-! ## Nodes that are there -/

theorem contains_eq (i : Nat) : g.contains i = (g.place? i).isSome := by
  unfold contains place?
  cases g.property? i <;> rfl

theorem lt_of_contains {i : Nat} (h : g.contains i) : i < g.forest.size := by
  rw [contains_eq] at h
  obtain ⟨x, hx⟩ := Option.isSome_iff_exists.mp h
  exact lt_of_place? hx

theorem contains_push (key : String) (source : Source) (i : Nat) :
    (g.push key source).contains i ↔ i = g.forest.size ∨ g.contains i := by
  rw [contains_eq, contains_eq, place?_push]
  split
  · next h => simp [h]
  · next h => simp [h]

theorem property?_attach (p c i : Nat) : (g.attach p c).property? i = g.property? i := by
  unfold property? attach
  rw [Forest.content?_attach]

theorem contains_attach (p c i : Nat) : (g.attach p c).contains i = g.contains i := by
  rw [contains, contains, property?_attach]

/-- A number that was drawn is not that of a node. -/
theorem property?_draw (i : Nat) : g.draw.2.property? i = g.property? i := by
  unfold property? draw
  rw [Forest.content?_push]
  split
  · next h =>
    rw [Forest.content?, Forest.node?_eq_none_of_le (Nat.le_of_eq h.symm)]
    rfl
  · rfl

theorem contains_of_childByKey {p c : Nat} {key : String} (h : g.childByKey p key = some c) :
    g.contains c := by
  obtain ⟨x, hx, -⟩ := Option.map_eq_some_iff.mp (hasKey_iff.mp (List.find?_some h))
  rw [contains_eq, hx]
  rfl

/-! ## Changes that leave the links alone -/

/-- New nodes without links, and nodes that stand for something else, do no harm. -/
theorem Sound.of_links (hg : Sound g) (hl : g'.forest.Linked)
    (hparent : ∀ i, g'.forest.parent? i = g.forest.parent? i)
    (hcontains : ∀ i, g.contains i → g'.contains i) : Sound g' where
  forest := ⟨hl, hg.forest.acyclic.mono fun i p h => (hparent i).symm.trans h⟩
  ends c p h := by
    obtain ⟨hc, hp⟩ := hg.ends c p ((hparent c).symm.trans h)
    exact ⟨hcontains c hc, hcontains p hp⟩

theorem SameShape.contains (h : SameShape g g') (i : Nat) : g'.contains i = g.contains i := by
  rw [contains_eq, contains_eq, h.place]

theorem SameShape.sound (h : SameShape g g') (hg : Sound g) : Sound g' := by
  refine hg.of_links ⟨fun i c => ?_, fun i => ?_⟩ h.parent fun i hi => (h.contains i).trans hi
  · rw [h.children, h.parent]
    exact hg.forest.linked.iff i c
  · rw [h.children]
    exact hg.forest.linked.nodup i

theorem sound_bare : Sound (bare : Graph ω) where
  forest := ⟨Forest.linked_push Forest.linked_empty _, Forest.acyclic_of_parent?_none parent?_bare⟩
  ends c p h := by
    rw [parent?_bare] at h
    cases h

theorem sound_push (hg : Sound g) (key : String) (source : Source) : Sound (g.push key source) :=
  hg.of_links (Forest.linked_push hg.forest.linked _) (Forest.parent?_push _)
    fun i hi => (contains_push key source i).mpr (.inr hi)

theorem sound_draw (hg : Sound g) : Sound g.draw.2 :=
  hg.of_links (Forest.linked_push hg.forest.linked _) (Forest.parent?_push _) fun i hi => by
    rw [contains, property?_draw]
    exact hi

/-- Grown graphs have parents that are older than their children. -/
theorem Grown.sound (hg : Grown g) : Sound g where
  forest := ⟨hg.linked, Forest.acyclic_of_older hg.older⟩
  ends c p h := by
    obtain ⟨base, path, s, hbase, hc, -⟩ := hg.child c p h
    obtain ⟨x, hx, -⟩ := Option.bind_eq_some_iff.mp hbase
    rw [contains_eq, contains_eq, hc, hx]
    exact ⟨rfl, rfl⟩

/-! ## Moving nodes -/

/-- A node can be moved to every other one that it is not above. -/
theorem link_eq_ok (hg : Sound g) {p c : Nat} : g.link p c = .ok g' ↔
    g.contains c ∧ g.contains p ∧ c ≠ p ∧ ¬g.forest.Above c p ∧ g' = g.attach p c := by
  have hcircle : g.forest.isAtOrAbove c p ↔ c = p ∨ g.forest.Above c p :=
    Forest.isAtOrAbove_iff hg.forest
  constructor
  · intro h
    unfold link at h
    split at h
    · cases h
    · split at h
      · cases h
      · split at h
        · cases h
        · next hc hp hat =>
          cases h
          obtain ⟨hne, hnot⟩ := not_or.mp (mt hcircle.mpr hat)
          exact ⟨by simpa using hc, by simpa using hp, hne, hnot, rfl⟩
  · rintro ⟨hc, hp, hne, hnot, rfl⟩
    have hat : g.forest.isAtOrAbove c p = false :=
      Bool.eq_false_iff.mpr (mt hcircle.mp (not_or.mpr ⟨hne, hnot⟩))
    simp [link, hc, hp, hat]

theorem sound_attach (hg : Sound g) {p c : Nat} (hp : g.contains p) (hc : g.contains c)
    (hne : c ≠ p) (hnot : ¬g.forest.Above c p) : Sound (g.attach p c) where
  forest :=
    ⟨Forest.linked_attach hg.forest.linked (lt_of_contains hp) (lt_of_contains hc),
      Forest.acyclic_attach hg.forest.acyclic (lt_of_contains hc) hne hnot⟩
  ends d q h := by
    rw [contains_attach, contains_attach]
    have hparent := Forest.parent?_attach (lt_of_contains hc) p d
    rw [show (g.attach p c).forest = g.forest.attach p c from rfl, hparent] at h
    split at h
    · next heq =>
      cases h
      exact ⟨heq ▸ hc, hp⟩
    · exact hg.ends d q h

theorem sound_link (hg : Sound g) {p c : Nat} (h : g.link p c = .ok g') : Sound g' := by
  obtain ⟨hc, hp, hne, hnot, rfl⟩ := (link_eq_ok hg).mp h
  exact sound_attach hg hp hc hne hnot

/-- Moving a node changes nothing but its place. -/
theorem relinked_of_link (hg : Sound g) {p c : Nat} (h : g.link p c = .ok g') :
    Relinked g p c g' := by
  obtain ⟨hc, hp, -, -, rfl⟩ := (link_eq_ok hg).mp h
  have herase : ∀ i, (g.forest.children i).filter (· ≠ c) = (g.forest.children i).erase c := by
    intro i
    rw [(hg.forest.linked.nodup i).erase_eq_filter]
    exact List.filter_congr fun d _ => by simp only [ne_eq, decide_not]; rfl
  refine ⟨property?_attach p c, rfl, Forest.size_attach p c, fun i => ?_, fun i => ?_⟩
  · refine (Forest.parent?_attach (lt_of_contains hc) p i).trans ?_
    simp only [eq_comm]
  · refine (Forest.children_attach hg.forest.linked (lt_of_contains hp) c i).trans ?_
    simp only [herase, eq_comm]

/-- A new node can be put under every other one: nothing leads to it yet, so it is above nothing. -/
theorem link_push (hg : Sound g) {p : Nat} (hp : g.contains p) (key : String) (source : Source) :
    (g.push key source).link p g.forest.size = .ok (g.pushChild p key source) := by
  refine (link_eq_ok (sound_push hg key source)).mpr ⟨?_, ?_, ?_, fun habove => ?_, rfl⟩
  · exact (contains_push key source _).mpr (.inl rfl)
  · exact (contains_push key source p).mpr (.inr hp)
  · exact Nat.ne_of_gt (lt_of_contains hp)
  · obtain ⟨c, hc, -⟩ := habove.top
    rw [show (g.push key source).forest.parent? c = g.forest.parent? c from
      Forest.parent?_push _ c] at hc
    exact Nat.lt_irrefl _ (lt_of_contains (hg.ends c _ hc).2)

theorem sound_pushChild (hg : Sound g) {p : Nat} (hp : g.contains p) (key : String)
    (source : Source) : Sound (g.pushChild p key source) :=
  sound_link (sound_push hg key source) (link_push hg hp key source)

theorem contains_pushChild (p : Nat) (key : String) (source : Source) (i : Nat) :
    (g.pushChild p key source).contains i ↔ i = g.forest.size ∨ g.contains i := by
  rw [pushChild, contains_attach]
  exact contains_push key source i

/-! ## Growing -/

mutual

/-- What new nodes keep, each under a parent that has no child of its key, growing keeps. -/
theorem growMember_keeps {I : Graph ω → Prop}
    (hI : ∀ g p key source, I g → g.contains p → g.childByKey p key = none →
      I (g.pushChild p key source))
    (g : Graph ω) (hg : I g) (p : Nat) (hp : g.contains p) (base : Path) (o : Outline) :
    I (growMember p base g o) ∧ ∀ i, g.contains i → (growMember p base g o).contains i := by
  cases o with
  | member s below =>
    rw [growMember]
    split
    · next id hid => exact growMembers_keeps hI g hg id (contains_of_childByKey hid) _ below
    · next hkey =>
      have hnew := contains_pushChild (g := g) p s.key (.data (base ++ [s]))
      obtain ⟨hkept, hnodes⟩ := growMembers_keeps hI _ (hI g p s.key _ hg hp hkey) g.forest.size
        ((hnew _).mpr (.inl rfl)) (base ++ [s]) below
      exact ⟨hkept, fun i hi => hnodes i ((hnew i).mpr (.inr hi))⟩

theorem growMembers_keeps {I : Graph ω → Prop}
    (hI : ∀ g p key source, I g → g.contains p → g.childByKey p key = none →
      I (g.pushChild p key source))
    (g : Graph ω) (hg : I g) (p : Nat) (hp : g.contains p) (base : Path) (os : List Outline) :
    I (growMembers p base g os) ∧ ∀ i, g.contains i → (growMembers p base g os).contains i := by
  cases os with
  | nil =>
    rw [growMembers]
    exact ⟨hg, fun _ hi => hi⟩
  | cons o os =>
    rw [growMembers]
    obtain ⟨hfirst, hnodes⟩ := growMember_keeps hI g hg p hp base o
    obtain ⟨hkept, hnodes'⟩ := growMembers_keeps hI _ hfirst p (hnodes p hp) base os
    exact ⟨hkept, fun i hi => hnodes' i (hnodes i hi)⟩

end

theorem grow_keeps {I : Graph ω → Prop}
    (hI : ∀ g p key source, I g → g.contains p → g.childByKey p key = none →
      I (g.pushChild p key source))
    (hg : I g) {v : Value} {p : Nat} {base : Path} (h : g.grow v p base = .ok g') : I g' := by
  unfold grow at h
  split at h
  · cases h
    exact hg
  · split at h
    · next hp =>
      cases h
      exact (growMembers_keeps hI g hg p hp base v.outline).1
    · cases h

/-- Growing may start at any node, also where the nodes below do not follow the value. -/
theorem sound_grow (hg : Sound g) {v : Value} {p : Nat} {base : Path}
    (h : g.grow v p base = .ok g') : Sound g' :=
  grow_keeps (fun _ _ key source hg hp _ => sound_pushChild hg hp key source) hg h

/-! ## All changes -/

/-- What a change keeps when it is done, it keeps. -/
theorem settle_keeps {I : Graph ω → Prop} (hg : I g) {r : Except Error (Graph ω)}
    (h : ∀ g', r = .ok g' → I g') : I (g.settle r).2 := by
  cases r with
  | ok g' => exact h g' rfl
  | error e => exact hg

/-- Every change keeps the links those of a forest. -/
theorem sound_apply (hg : Sound g) (e : Edit) : Sound (g.apply e).2 := by
  cases e with
  | insert key source parent =>
    cases parent with
    | none => exact sound_push hg key source
    | some p =>
      rw [apply, insert]
      by_cases hp : g.contains p
      · rw [if_pos hp]
        exact sound_pushChild hg hp key source
      · rw [if_neg hp]
        exact hg
  | insertComputed name =>
    have hpush := sound_push hg name (.computed name)
    exact hpush.of_links hpush.forest.linked (fun _ => rfl) fun _ hi => hi
  | draw => exact sound_draw hg
  | link p c => exact settle_keeps hg fun _ h => sound_link hg h
  | setPrevious id v => exact settle_keeps hg fun _ h => (sameShape_setPrevious h).sound hg
  | grow v p base => exact settle_keeps hg fun _ h => sound_grow hg h

theorem sound_of_built (h : Built g) : Sound g := by
  induction h with
  | bare => exact sound_bare
  | apply _ e ih => exact sound_apply ih e
  | observe _ id o ih => exact settle_keeps ih fun _ h => (sameShape_observe h).sound ih

/-- A change that is refused has no effect. -/
theorem apply_of_error {e : Edit} {err : Error} (h : (g.apply e).1 = .error err) :
    (g.apply e).2 = g := by
  have hsettle : ∀ r : Except Error (Graph ω), (g.settle r).1 = .error err → (g.settle r).2 = g := by
    rintro (e | g') h
    · rfl
    · cases h
  cases e with
  | insert key source parent =>
    rw [apply] at h ⊢
    cases hinsert : g.insert key source parent with
    | ok r =>
      rw [hinsert] at h
      cases h
    | error e => rfl
  | insertComputed name => cases h
  | draw => cases h
  | link p c => exact hsettle _ h
  | setPrevious id v => exact hsettle _ h
  | grow v p base => exact hsettle _ h

/-- Built graphs are forests. Both ends of a link agree, no child is listed twice, links lead between
nodes that are there, and no node is above itself. A change that is refused has no effect; a node
can be moved to just those nodes that it is not above, which changes nothing but its place; and a
new node is put under a parent by moving it there, which is never refused. -/
theorem links_of_built (h : Built g) :
    (∀ p c, c ∈ g.forest.children p ↔ g.forest.parent? c = some p) ∧
    (∀ p, (g.forest.children p).Nodup) ∧
    (∀ p c, g.forest.parent? c = some p → g.contains c ∧ g.contains p) ∧
    (∀ i, ¬g.forest.Above i i) ∧
    (∀ e err, (g.apply e).1 = .error err → (g.apply e).2 = g) ∧
    (∀ p c, (∃ g', g.link p c = .ok g') ↔
      g.contains c ∧ g.contains p ∧ c ≠ p ∧ ¬g.forest.Above c p) ∧
    (∀ p c g', g.link p c = .ok g' → Relinked g p c g') ∧
    (∀ p key source, g.contains p →
      (g.push key source).link p g.forest.size = .ok (g.pushChild p key source)) := by
  have hg := sound_of_built h
  refine ⟨hg.forest.linked.iff, hg.forest.linked.nodup, fun p c => hg.ends c p, hg.forest.acyclic,
    fun _ _ => apply_of_error, fun p c => ⟨?_, ?_⟩, fun _ _ _ => relinked_of_link hg,
    fun _ key source hp => link_push hg hp key source⟩
  · rintro ⟨g', hlink⟩
    obtain ⟨hc, hp, hne, hnot, -⟩ := (link_eq_ok hg).mp hlink
    exact ⟨hc, hp, hne, hnot⟩
  · rintro ⟨hc, hp, hne, hnot⟩
    exact ⟨_, (link_eq_ok hg).mpr ⟨hc, hp, hne, hnot, rfl⟩⟩

/-- Two nodes below the root, the second then moved below the first. -/
def moved : Graph Unit :=
  (((bare.apply (.insert "a" (.data [.field "a"]) (some root))).2.apply
    (.insert "b" (.data [.field "b"]) (some root))).2.apply (.link 1 2)).2

/-- The moved node has left the root, and the two cannot change places. -/
theorem links_of_built_moved : Built moved ∧ moved.forest.parent? 2 = some 1 ∧
    2 ∉ moved.forest.children root ∧ ¬moved.forest.Above 2 2 ∧
    (moved.apply (.link 2 1)).1 = .error (.cyclicLink 2 1) ∧
    (moved.apply (.link 2 1)).2 = moved := by
  have hbuilt : Built moved := .apply (.apply (.apply .bare _) _) _
  obtain ⟨hiff, -, -, hacyclic, hrefused, -⟩ := links_of_built hbuilt
  have hparent : moved.forest.parent? 2 = some 1 := (hiff 1 2).mp (by decide)
  refine ⟨hbuilt, hparent, fun h => ?_, hacyclic 2, rfl, hrefused (.link 2 1) _ rfl⟩
  have hroot := (hiff root 2).mp h
  rw [hparent] at hroot
  cases hroot

end ReactiveView.Graph
