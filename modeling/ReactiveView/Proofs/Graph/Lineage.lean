import ReactiveView.Proofs.Forest.Siblings
import ReactiveView.Proofs.Graph.Top
/-!
# Walks through observable graphs

Two walks start from a node: one goes down with a stack, one goes up from parent to parent. Neither
counts its steps, and each looks up every node that it comes to, so nothing in them says that they
end, or that they only meet nodes that are there. Both follow from the links being those of a
forest, which every graph that can be built has: below a node there is nothing twice and not the
node itself, and a link leads between nodes that are there.

Results:
* `Visits.unique`: a walk has one result.
* `visits_of_popped`, `visits_ancestors`: in a sound graph it is what is below or above the node.
* `lineage_of_built`: both walks end in every graph that can be built; they are dual to each other,
  come to no node twice, and the way down is the preorder of the lists of children.
-/
namespace ReactiveView.Graph

variable {ω : Type} {g : Graph ω}

/-- A walk with a stack. The top is taken off and visited, and what comes next after it is put on in
its place, the first of it on top. The walk fails where it is not known what comes next. -/
inductive Visits (next : Nat → Except Error (List Nat)) :
    List Nat → Except Error (List Nat) → Prop
  | done : Visits next [] (.ok [])
  | lost {i : Nat} {stack : List Nat} {e : Error} (h : next i = .error e) :
      Visits next (i :: stack) (.error e)
  | goes {i : Nat} {is stack : List Nat} {r : Except Error (List Nat)} (hi : next i = .ok is)
      (h : Visits next (is ++ stack) r) : Visits next (i :: stack) (r.map (i :: ·))

/-- What comes next on the way up: the parent, if there is one. -/
def ascent (g : Graph ω) (i : Nat) : Except Error (List Nat) := (g.parent i).map Option.toList

theorem Visits.unique {next : Nat → Except Error (List Nat)} {stack : List Nat}
    {r r' : Except Error (List Nat)} (h : Visits next stack r) (h' : Visits next stack r') :
    r = r' := by
  induction h generalizing r' with
  | done =>
    cases h'
    rfl
  | lost hi =>
    cases h' with
    | lost hi' => rw [Except.error.inj (hi.symm.trans hi')]
    | goes hi' _ => cases hi.symm.trans hi'
  | goes hi _ ih =>
    cases h' with
    | lost hi' => cases hi.symm.trans hi'
    | goes hi' h' =>
      cases hi.symm.trans hi'
      rw [ih h']

/-! ## The walks end -/

theorem children_of_contains {i : Nat} (hi : g.contains i) :
    g.children i = .ok (g.forest.children i) := by
  obtain ⟨x, hx⟩ := Option.isSome_iff_exists.mp hi
  rw [children, property_eq_ok.mpr hx]
  rfl

/-- What is above or below a node that is there is there. -/
theorem Sound.contains_of_above (hg : Sound g) {a i : Nat} (h : g.forest.Above a i) :
    g.contains a ∧ g.contains i := by
  induction h with
  | parent hp => exact (hg.ends _ _ hp).symm
  | step hp _ ih => exact ⟨ih.1, (hg.ends _ _ hp).1⟩

/-- A walk down that finds only nodes that are there does not fail. -/
theorem visits_of_popped {stack found : List Nat} (h : g.forest.Popped stack found)
    (hfound : ∀ i ∈ found, g.contains i) : Visits g.children stack (.ok found) := by
  induction h with
  | done => exact .done
  | pop _ ih =>
    obtain ⟨hi, hrest⟩ := List.forall_mem_cons.mp hfound
    exact .goes (children_of_contains hi) (ih hrest)

theorem visits_descendants (hg : Sound g) (i : Nat) :
    Visits g.children (g.forest.children i) (.ok (g.forest.descendants i)) :=
  visits_of_popped (Forest.popped_descendants hg.forest i) fun _ hj =>
    (hg.contains_of_above ((Forest.mem_descendants_iff hg.forest).mp hj)).2

/-- The way up ends, since the line of parents is a list. -/
theorem visits_ancestors (hg : Sound g) (i : Nat) :
    Visits g.ascent (g.forest.parent? i).toList (.ok (g.forest.ancestors i)) := by
  generalize habove : g.forest.ancestors i = above
  induction above generalizing i with
  | nil =>
    rw [Forest.ancestors_eq hg.forest] at habove
    cases hp : g.forest.parent? i with
    | none => exact .done
    | some p =>
      rw [hp] at habove
      cases habove
  | cons a above ih =>
    rw [Forest.ancestors_eq hg.forest] at habove
    cases hp : g.forest.parent? i with
    | none =>
      rw [hp] at habove
      cases habove
    | some p =>
      rw [hp] at habove
      injection habove with hpa hrest
      subst hpa
      have hnext : g.ascent p = .ok (g.forest.parent? p).toList := by
        rw [ascent, (reads_of_contains (hg.ends i p hp).2).1]
        rfl
      have hup : Visits g.ascent ((g.forest.parent? p).toList ++ []) (.ok above) := by
        rw [List.append_nil]
        exact ih p hrest
      exact .goes hnext hup

/-! ## Graphs that can be built -/

theorem built_edited (hg : Built g) (edits : List Edit) : Built (g.edited edits) := by
  induction edits generalizing g with
  | nil => exact hg
  | cons e edits ih => exact ih (hg.apply e)

/-- Whatever nodes are inserted, linked and grown, in any order: from every node that is there the
walks down and up end without an error, and with the result of `descendants` and `ancestors`.
Neither comes to the node itself or to any node twice. A node is below another one just if that one
is above it. And the way down is the preorder: the children in order, each directly followed by what
is below it. -/
theorem lineage_of_built (h : Built g) {i : Nat} (hi : g.contains i) :
    ∃ children parent below above,
      (g.children i = .ok children ∧ g.descendants i = .ok below ∧
        ∀ r, Visits g.children children r ↔ r = .ok below) ∧
      (g.parent i = .ok parent ∧ g.ancestors i = .ok above ∧
        ∀ r, Visits g.ascent parent.toList r ↔ r = .ok above) ∧
      (i :: below).Nodup ∧ (i :: above).Nodup ∧
      (∀ d, g.contains d → ∃ above', g.ancestors d = .ok above' ∧ (d ∈ below ↔ i ∈ above')) ∧
      ∃ rows : Nat → List Nat, (∀ c ∈ children, g.descendants c = .ok (rows c)) ∧
        below = children.flatMap fun c => c :: rows c := by
  have hg : Sound g := sound_of_built h
  have hf := hg.forest
  obtain ⟨hparent, hancestors, hdescendants⟩ := reads_of_contains hi
  have hdown := visits_descendants hg i
  have hup := visits_ancestors hg i
  have hbelow : i ∉ g.forest.descendants i := fun hmem =>
    hf.acyclic i ((Forest.mem_descendants_iff hf).mp hmem)
  have habove : i ∉ g.forest.ancestors i := fun hmem =>
    hf.acyclic i ((Forest.mem_ancestors_iff hf).mp hmem)
  refine ⟨_, _, _, _, ⟨children_of_contains hi, hdescendants, fun r => ?_⟩,
    ⟨hparent, hancestors, fun r => ?_⟩,
    List.nodup_cons.mpr ⟨hbelow, Forest.nodup_descendants hf i⟩,
    List.nodup_cons.mpr ⟨habove, Forest.nodup_ancestors hf.acyclic i⟩, fun d hd => ?_,
    g.forest.descendants, fun c hc => ?_, Forest.descendants_eq hf i⟩
  · exact ⟨fun hr => hr.unique hdown, fun hr => hr ▸ hdown⟩
  · exact ⟨fun hr => hr.unique hup, fun hr => hr ▸ hup⟩
  · refine ⟨_, (reads_of_contains hd).2.1, ?_⟩
    rw [Forest.mem_descendants_iff hf, Forest.mem_ancestors_iff hf]
  · have hchild : g.forest.parent? c = some i := (hf.linked.iff i c).mp hc
    exact (reads_of_contains (hg.ends c i hchild).1).2.2

/-- Two nodes below the root and one beside it, which is put below the first of them afterwards. -/
def relinking : List Edit :=
  [.insert "a" (.data [.field "a"]) (some root), .insert "b" (.data [.field "b"]) (some root),
    .insert "x" (.data [.field "x"]) none, .link 1 3]

/-- The node that was put there last is found between the two older ones. -/
theorem lineage_of_built_relinking : Built ((bare : Graph Unit).edited relinking) ∧
    ((bare : Graph Unit).edited relinking).contains root ∧
    ((bare : Graph Unit).edited relinking).descendants root = .ok [1, 3, 2] ∧
    Visits ((bare : Graph Unit).edited relinking).children [1, 2] (.ok [1, 3, 2]) ∧
    ((bare : Graph Unit).edited relinking).ancestors 3 = .ok [1, root] := by
  have hbuilt : Built ((bare : Graph Unit).edited relinking) := built_edited .bare relinking
  obtain ⟨children, parent, below, above, ⟨hchildren, hbelow, hdown⟩, -⟩ :=
    lineage_of_built hbuilt (i := root) rfl
  obtain rfl : children = [1, 2] := Except.ok.inj (hchildren.symm.trans rfl)
  obtain rfl : below = [1, 3, 2] := Except.ok.inj (hbelow.symm.trans rfl)
  exact ⟨hbuilt, rfl, rfl, (hdown _).mpr rfl, rfl⟩

end ReactiveView.Graph
