import ReactiveView.Proofs.Graph.Links
/-!
# The top of observable graphs

A graph starts with its root, which has no parent. Moving a node only looks for circles, so a node
that is not below the root can become the parent of the root like that of any other node, and from
then on the lines of parents go on above the root. Nothing else gives a node that is there a parent,
and nothing takes a parent away. So the root is the top just as long as no such move was accepted.

Results:
* `parent?_apply`: only an accepted move gives a node another parent.
* `parent?_root_edited_iff`: the root has no parent just if no move of the root was accepted.
* `top_of_edits`: then, and only then, the nodes above every node below the root end with the root.
-/
namespace ReactiveView.Graph

variable {ω : Type} {g : Graph ω}

/-- The graph after changes in a row. A change that is refused leaves it as it was. -/
def edited (g : Graph ω) (edits : List Edit) : Graph ω := edits.foldl (fun g e => (g.apply e).2) g

/-- The change moves a node under another one, and is accepted. -/
def Moves (g : Graph ω) (i : Nat) (e : Edit) : Prop :=
  ∃ p g', e = .link p i ∧ g.link p i = .ok g'

/-- Among changes in a row is one that puts the root under another node, and is accepted. -/
def Raises (g : Graph ω) : List Edit → Prop
  | [] => False
  | e :: edits => g.Moves root e ∨ (g.apply e).2.Raises edits

/-! ## One change -/

/-- Nodes are never removed. -/
theorem contains_apply (hg : Sound g) {i : Nat} (hi : g.contains i) (e : Edit) :
    (g.apply e).2.contains i := by
  cases e with
  | insert key source parent =>
    cases parent with
    | none => exact (contains_push key source i).mpr (.inr hi)
    | some p =>
      rw [apply, insert]
      by_cases hp : g.contains p
      · rw [if_pos hp]
        exact (contains_pushChild p key source i).mpr (.inr hi)
      · rw [if_neg hp]
        exact hi
  | insertComputed name => exact (contains_push name (.computed name) i).mpr (.inr hi)
  | draw =>
    rw [contains, apply, property?_draw]
    exact hi
  | link p c =>
    refine settle_keeps (I := fun g' => g'.contains i) hi fun g' h => ?_
    rw [contains, (relinked_of_link hg h).property]
    exact hi
  | setPrevious id v =>
    exact settle_keeps (I := fun g' => g'.contains i) hi
      fun g' h => ((sameShape_setPrevious h).contains i).trans hi
  | grow v p base =>
    refine settle_keeps (I := fun g' => g'.contains i) hi fun g' h => ?_
    exact grow_keeps (I := fun g' => g'.contains i)
      (fun _ p key source hi _ _ => (contains_pushChild p key source i).mpr (.inr hi)) hi h

/-- A new child is another node than those that are there, which keep their parents. -/
theorem parent?_pushChild_of_contains {i : Nat} (hi : g.contains i) (p : Nat) (key : String)
    (source : Source) : (g.pushChild p key source).forest.parent? i = g.forest.parent? i := by
  rw [parent?_pushChild, if_neg (Nat.ne_of_lt (lt_of_contains hi))]

/-- Growing gives parents to new nodes only. -/
theorem parent?_grow {g' : Graph ω} {i : Nat} (hi : g.contains i) {v : Value} {p : Nat}
    {base : Path} (h : g.grow v p base = .ok g') : g'.forest.parent? i = g.forest.parent? i := by
  have hstays := grow_keeps
    (I := fun g' : Graph ω => g'.contains i ∧ g'.forest.parent? i = g.forest.parent? i)
    (fun g₁ p key source hg₁ _ _ => ⟨(contains_pushChild p key source i).mpr (.inr hg₁.1),
      (parent?_pushChild_of_contains hg₁.1 p key source).trans hg₁.2⟩) ⟨hi, rfl⟩ h
  exact hstays.2

/-- A node that is there keeps its parent, unless it is moved. -/
theorem parent?_apply (hg : Sound g) {i : Nat} (hi : g.contains i) {e : Edit}
    (he : ¬g.Moves i e) : (g.apply e).2.forest.parent? i = g.forest.parent? i := by
  cases e with
  | insert key source parent =>
    cases parent with
    | none => exact Forest.parent?_push _ i
    | some p =>
      rw [apply, insert]
      by_cases hp : g.contains p
      · rw [if_pos hp]
        exact parent?_pushChild_of_contains hi p key source
      · rw [if_neg hp]
  | insertComputed name => exact Forest.parent?_push _ i
  | draw => exact Forest.parent?_push _ i
  | link p c =>
    refine settle_keeps (I := fun g' => g'.forest.parent? i = g.forest.parent? i) rfl
      fun g' h => ?_
    have hne : i ≠ c := by
      rintro rfl
      exact he ⟨p, g', rfl, h⟩
    rw [(relinked_of_link hg h).parent, if_neg hne]
  | setPrevious id v =>
    exact settle_keeps (I := fun g' => g'.forest.parent? i = g.forest.parent? i) rfl
      fun g' h => (sameShape_setPrevious h).parent i
  | grow v p base =>
    exact settle_keeps (I := fun g' => g'.forest.parent? i = g.forest.parent? i) rfl
      fun g' h => parent?_grow hi h

/-- A node that has been moved has a parent. -/
theorem parent?_apply_of_moves (hg : Sound g) {i : Nat} {e : Edit} (he : g.Moves i e) :
    (g.apply e).2.forest.parent? i ≠ none := by
  obtain ⟨p, g', rfl, h⟩ := he
  rw [apply, h, settle, (relinked_of_link hg h).parent, if_pos rfl]
  exact Option.some_ne_none p

/-- No change takes a parent away. -/
theorem parent?_apply_eq_none_iff (hg : Sound g) {i : Nat} (hi : g.contains i) (e : Edit) :
    (g.apply e).2.forest.parent? i = none ↔ g.forest.parent? i = none ∧ ¬g.Moves i e := by
  by_cases he : g.Moves i e
  · exact iff_of_false (parent?_apply_of_moves hg he) fun h => h.2 he
  · rw [parent?_apply hg hi he]
    exact (and_iff_left he).symm

/-! ## Changes in a row -/

theorem sound_edited (hg : Sound g) (edits : List Edit) : Sound (g.edited edits) := by
  induction edits generalizing g with
  | nil => exact hg
  | cons e edits ih => exact ih (sound_apply hg e)

theorem contains_edited (hg : Sound g) {i : Nat} (hi : g.contains i) (edits : List Edit) :
    (g.edited edits).contains i := by
  induction edits generalizing g with
  | nil => exact hi
  | cons e edits ih => exact ih (sound_apply hg e) (contains_apply hg hi e)

/-- The root has a parent from the first accepted move of the root on. -/
theorem parent?_root_edited_iff (hg : Sound g) (hroot : g.contains root) (edits : List Edit) :
    (g.edited edits).forest.parent? root = none ↔
      g.forest.parent? root = none ∧ ¬g.Raises edits := by
  induction edits generalizing g with
  | nil => exact (and_iff_left id).symm
  | cons e edits ih =>
    have hrest := ih (sound_apply hg e) (contains_apply hg hroot e)
    rw [parent?_apply_eq_none_iff hg hroot e] at hrest
    rw [Raises, not_or, ← and_assoc]
    exact hrest

/-- What is known of a node that is there: its parent, and the nodes above and below it. -/
theorem reads_of_contains {i : Nat} (hi : g.contains i) :
    g.parent i = .ok (g.forest.parent? i) ∧ g.ancestors i = .ok (g.forest.ancestors i) ∧
      g.descendants i = .ok (g.forest.descendants i) := by
  obtain ⟨x, hx⟩ := Option.isSome_iff_exists.mp hi
  rw [parent, ancestors, descendants, property_eq_ok.mpr hx]
  exact ⟨rfl, rfl, rfl⟩

/-- Whatever nodes are inserted, linked and grown, in any order: the root has no parent just if no
move of the root was accepted, and then, and only then, the nodes above every node below the root
end with the root. Such a move is accepted under every node but the root and those below it. -/
theorem top_of_edits (edits : List Edit) :
    let g := (bare : Graph ω).edited edits
    (g.parent root = .ok none ↔ ¬(bare : Graph ω).Raises edits) ∧
    (∃ below, g.descendants root = .ok below ∧ ∀ i ∈ below, ∃ above, g.ancestors i = .ok above ∧
      (above.getLast? = some root ↔ ¬(bare : Graph ω).Raises edits)) ∧
    (∀ p, (∃ g', g.link p root = .ok g') ↔
      g.contains p ∧ p ≠ root ∧ ¬g.forest.Above root p) := by
  intro g
  have hg : Sound g := sound_edited sound_bare edits
  have hroot : g.contains root := contains_edited sound_bare rfl edits
  have htop : g.forest.parent? root = none ↔ ¬(bare : Graph ω).Raises edits := by
    rw [parent?_root_edited_iff sound_bare rfl edits]
    exact and_iff_right (parent?_bare root)
  obtain ⟨hparent, -, hdescendants⟩ := reads_of_contains hroot
  refine ⟨?_, ⟨_, hdescendants, fun i hi => ?_⟩, fun p => ⟨?_, ?_⟩⟩
  · rw [hparent, ← htop]
    exact ⟨fun h => Except.ok.inj h, congrArg Except.ok⟩
  · have habove : g.forest.Above root i := (Forest.mem_descendants_iff hg.forest).mp hi
    obtain ⟨p, hp⟩ := habove.exists_parent
    obtain ⟨-, hancestors, -⟩ := reads_of_contains (hg.ends i p hp).1
    exact ⟨_, hancestors, (Forest.getLast?_ancestors_iff hg.forest habove).trans htop⟩
  · rintro ⟨g', hlink⟩
    obtain ⟨-, hp, hne, hnot, -⟩ := (link_eq_ok hg).mp hlink
    exact ⟨hp, hne.symm, hnot⟩
  · rintro ⟨hp, hne, hnot⟩
    exact ⟨_, (link_eq_ok hg).mpr ⟨hroot, hp, hne.symm, hnot, rfl⟩⟩

/-- A node below the root, and a node beside it under which the root is put. -/
def raising : List Edit :=
  [.insert "a" (.data [.field "a"]) (some root), .insert "x" (.data [.field "x"]) none, .link 2 root]

/-- The root has a parent, and the line of parents from the node below the root ends there. -/
theorem top_of_edits_raising : (bare : Graph Unit).Raises raising ∧
    ((bare : Graph Unit).edited raising).parent root = .ok (some 2) ∧
    ((bare : Graph Unit).edited raising).parent root ≠ .ok none ∧
    ((bare : Graph Unit).edited raising).ancestors 1 = .ok [root, 2] := by
  have hraises : (bare : Graph Unit).Raises raising := .inr (.inr (.inl ⟨2, _, rfl, rfl⟩))
  obtain ⟨hparent, -, -⟩ := top_of_edits (ω := Unit) raising
  exact ⟨hraises, rfl, fun h => hparent.mp h hraises, rfl⟩

end ReactiveView.Graph
