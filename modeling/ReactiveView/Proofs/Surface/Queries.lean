import ReactiveView.Proofs.Forest.Order
import ReactiveView.Proofs.Surface.WellFormed
/-!
# What a query finds

A query goes through the document only: a node that was taken out, or that was never put in, is not
below the document, whatever it matches. What it finds is in document order, which after moves is
not the order in which the nodes were made, and the walk with a stack, which puts the children of a
node on the stack in its place, finds the same nodes in the same order.

Results:
* `mem_select_iff`, `pairwise_select`: what a selector finds, and in which order.
* `popped_document`: the walk with a stack goes through the document and all that is below it.
* `queryAll_of_reached`: a query of a surface that can come about finds this, and nothing else.
-/
namespace ReactiveView.Surface

variable {ℓ : Type} {s : Surface ℓ} {selector : Selector}

theorem isMatch_iff {i : Nat} : s.isMatch selector i ↔ ∃ tag attributes,
    s.content? i = some (.element tag attributes) ∧
      selector.isMatch tag (Entries.get? attributes) = true := by
  unfold isMatch
  cases s.content? i with
  | none => simp
  | some c => cases c <;> simp

/-- What a selector finds are the matches below the document. -/
theorem mem_select_iff (hs : WellFormed s) (hdocument : s.content? document = some .document)
    {i : Nat} : i ∈ s.select selector ↔ s.forest.Above document i ∧ s.isMatch selector i := by
  rw [select, List.mem_filter, List.mem_cons, Forest.mem_descendants_iff hs.sound_forest]
  refine and_congr_left fun hmatch => or_iff_right ?_
  -- the document matches no selector, because it is no element
  rintro rfl
  obtain ⟨tag, attributes, helement, -⟩ := isMatch_iff.mp hmatch
  rw [hdocument] at helement
  cases helement

/-- What a selector finds is in document order. -/
theorem pairwise_select (hs : WellFormed s) : (s.select selector).Pairwise s.forest.Precedes := by
  have hbelow := Forest.pairwise_descendants hs.sound_forest document
  have hfirst : ∀ i ∈ s.forest.descendants document, s.forest.Precedes document i :=
    fun i hi => .above ((Forest.mem_descendants_iff hs.sound_forest).mp hi)
  exact (List.Pairwise.cons hfirst hbelow).filter _

/-- A walk with a stack that starts at the document goes through all that is below it. -/
theorem popped_document (hs : WellFormed s) :
    s.forest.Popped [document] (document :: s.forest.descendants document) := by
  refine .pop ?_
  rw [List.append_nil]
  exact Forest.popped_descendants hs.sound_forest document

/-- A query of a surface that can come about finds the elements below the document that the selector
matches, each of them once and in document order, as a walk with a stack comes to them. The first of
them is what a query for one element finds. -/
theorem queryAll_of_reached (h : Reached s) {source : String}
    (hread : Selector.read source = .ok selector) :
    ∃ found, s.queryAll source = .ok found ∧ s.query source = .ok found.head? ∧
      (∀ i, i ∈ found ↔ s.forest.Above document i ∧ ∃ tag attributes,
        s.content? i = some (.element tag attributes) ∧
          selector.isMatch tag (Entries.get? attributes) = true) ∧
      found.Nodup ∧ found.Pairwise s.forest.Precedes ∧
      (∀ other : List Nat, other.Pairwise s.forest.Precedes → (∀ i, i ∈ other ↔ i ∈ found) →
        other = found) ∧
      ∃ visited, s.forest.Popped [document] visited ∧
        found = visited.filter (s.isMatch selector) := by
  have hs := wellFormed_of_reached h
  have hqueryAll : s.queryAll source = .ok (s.select selector) := by
    rw [queryAll, hread]
    rfl
  have hquery : s.query source = .ok (s.select selector).head? := by
    rw [query, hqueryAll]
    rfl
  have horder : (s.select selector).Pairwise s.forest.Precedes := pairwise_select hs
  refine ⟨s.select selector, hqueryAll, hquery, fun i => ?_,
    Forest.nodup_of_pairwise hs.sound_forest horder, horder,
    fun other hother => Forest.eq_of_pairwise hs.sound_forest hother horder,
    _, popped_document hs, rfl⟩
  rw [mem_select_iff hs (content?_document_of_reached h), isMatch_iff]

/-- A document whose list was moved to its end and emptied; the element that held the list is now in
the list, so it comes behind it, and the item is nowhere. -/
theorem queryAll_of_reached_moved :
    let s : Surface Unit := repeatSurface.after [.append 0 2, .clear 2, .append 2 1]
    Reached s ∧ Selector.read "*" = .ok ⟨none, none, []⟩ ∧ s.queryAll "*" = .ok [2, 1] ∧
      s.query "*" = .ok (some 2) ∧ s.forest.Precedes 2 1 ∧ s.kind 3 = .ok "element" ∧
      ¬s.forest.Above document 3 := by
  intro s
  have hreached : Reached s :=
    reached_after (reached_of_ofMarkup ofMarkup_repeatMarkup) _
  have hread : Selector.read "*" = .ok ⟨none, none, []⟩ := eq_ok_of_toOption (by decide +kernel)
  obtain ⟨found, hall, hfirst, hmem, -, horder, -⟩ := queryAll_of_reached hreached hread
  have hfound : s.select ⟨none, none, []⟩ = [2, 1] := by decide +kernel
  have heq : found = [2, 1] := by
    rw [queryAll, hread] at hall
    exact (Except.ok.inj hall).symm.trans hfound
  subst heq
  refine ⟨hreached, hread, hall, hfirst, (List.pairwise_pair.mp horder), rfl, fun h => ?_⟩
  exact absurd ((hmem 3).mpr ⟨h, "li", [("vm-repeat", "item in items")], rfl, rfl⟩) (by decide)

end ReactiveView.Surface
