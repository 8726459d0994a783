import ReactiveView.Proofs.Page.Coverage
import ReactiveView.Proofs.Value.Spelling
/-!
# Writes through different spellings

A write goes to the data by its path and to the graph by the keys of its path. The data takes any
spelling of an index, the graph only the canonical one. So the spelling of a path makes no difference
as long as it is plain, and otherwise the write is done to the data, but the node of the member does
not hear of it.

Results:
* `resolve_of_keys_eq`, `keys_eq_of_resolve`: a node is found by the keys of one spelling only.
* `assign_respelled`: what the spelling of a path changes about a write.
-/
namespace ReactiveView

namespace Graph

variable {ω : Type} {g : Graph ω} {q r : Path}

/-- Paths with the same keys lead to the same node. -/
theorem resolve_of_keys_eq (h : q.keys = r.keys) : g.resolve q = g.resolve r := by
  cases q with
  | nil => rw [List.map_eq_nil_iff.mp h.symm]
  | cons s q =>
    cases r with
    | nil => cases h
    | cons t r =>
      obtain ⟨hkey, hrest⟩ := List.cons.inj h
      have hrest : Path.keys q = Path.keys r := hrest
      simp only [resolve, foldlM_keys, hkey, hrest]

/-- Paths that lead to the same node have the same keys. -/
theorem keys_eq_of_resolve (hg : Grown g) {i : Nat} (hq : g.resolve q = some i)
    (hr : g.resolve r = some i) : q.keys = r.keys := by
  by_cases hi : i ∈ g.computed
  · have hname : ∀ {path : Path}, g.resolve path = some i →
        ∃ s, path = [s] ∧ g.place? i = some (Segment.key s, .computed s.key) := by
      intro path h
      rcases resolve_eq_some hg h with hwalk | ⟨s, hs, -, hplace, -⟩
      · obtain ⟨rest, hrest, -⟩ := location?_of_walk hg (location?_root hg) hwalk
        rw [location?_of_mem_computed hg hi] at hrest
        cases hrest
      · exact ⟨s, hs, hplace⟩
    obtain ⟨s, rfl, hs⟩ := hname hq
    obtain ⟨t, rfl, ht⟩ := hname hr
    rw [hs] at ht
    simp only [Path.keys, List.map_cons, List.map_nil]
    rw [(Prod.mk.inj (Option.some.inj ht)).1]
  · obtain ⟨-, p, hp, hkeys⟩ := walk_resolve hg hq hi
    obtain ⟨-, p', hp', hkeys'⟩ := walk_resolve hg hr hi
    rw [hp] at hp'
    cases hp'
    exact hkeys.symm.trans hkeys'

end Graph

namespace Page

open ReactiveView.Graph Run

variable {σ : Type} {p : Page σ} {run : Program σ → Run (Page σ) Value} {depth : Nat} {x : Value}
  {path q r : Path}

theorem write_of_set {old data : Value} (h : p.data.set path x = .ok (old, data)) :
    write run depth path x p = (do
      match ← Run.look fun p => p.graph.resolve path with
      | none => pure none
      | some id => do
        onGraph fun g => g.settle (g.setPrevious id old)
        (cascade run).notifyAll depth id
        pure (some id) : Run (Page σ) (Option Nat)) { p with data } := by
  refine bind_of_done (a := old) ?_
  simp only [Run.edit, h]

theorem assign_of_free (h : p.isReadOnly path = false) :
    assign run depth path x p = (do let _ ← write run depth path x; pure ()) p := by
  show (if p.isReadOnly path then _ else _ : Run (Page σ) Unit) p = _
  rw [h]
  rfl

theorem assign_of_refused (h : p.isReadOnly path) : assign run depth path x p
    = .failed (.notAssignable path.text "computed properties and methods are read-only") p := by
  show (if p.isReadOnly path then _ else _ : Run (Page σ) Unit) p = _
  rw [h]
  rfl

theorem set_of_refused {source : String} {e : Expression} (he : Expression.read source = .ok e)
    (h : p.isReadOnly e.path) : set run depth source x p = .failed (if e.isCall then
      .notAssignable e.source "call expressions are read-only" else
      .notAssignable e.path.text "computed properties and methods are read-only") p := by
  rw [set, he]
  show e.assign (scope run depth .page) x p = _
  rw [Expression.assign, Expression.target]
  cases e.isCall with
  | true => rfl
  | false => exact assign_of_refused h

/-- Two spellings of one member are written alike: the same value is replaced, and the same data
results. Where both are plain, all of the run is the same, so the same nodes are notified in the
same order, or both are refused. Where only one is, the node that it leads to is not the one that
hears of a write through the other. -/
theorem assign_respelled (h : p.data.SameMember q r) (hread : p.isReadOnly q = p.isReadOnly r) :
    (∃ old data, p.data.set q x = .ok (old, data) ∧ p.data.set r x = .ok (old, data)) ∧
      (p.data.isPlainAlong q → p.data.isPlainAlong r →
        assign run depth q x p = assign run depth r x p ∨
          ∃ message, assign run depth q x p = .failed (.notAssignable q.text message) p ∧
            assign run depth r x p = .failed (.notAssignable r.text message) p) ∧
      (Grown p.graph → p.data.isPlainAlong q → ¬p.data.isPlainAlong r →
        ∀ id, p.graph.resolve q = some id → p.graph.resolve r ≠ some id) := by
  obtain ⟨old, data, hq, hr⟩ := Value.set_respelled h x
  refine ⟨⟨old, data, hq, hr⟩, fun hqplain hrplain => ?_, fun hg hqplain hrplain id hid hid' => ?_⟩
  · cases hrefused : p.isReadOnly q with
    | true =>
      exact .inr ⟨_, assign_of_refused hrefused, assign_of_refused (hread.symm.trans hrefused)⟩
    | false =>
      have hresolve : ∀ g : Graph (Observer σ), g.resolve q = g.resolve r := fun g =>
        resolve_of_keys_eq ((Value.keys_eq_iff h hqplain).mpr hrplain)
      have hwrite : write run depth q x p = write run depth r x p := by
        rw [write_of_set hq, write_of_set hr]
        simp only [hresolve]
      rw [assign_of_free hrefused, assign_of_free (hread.symm.trans hrefused), bind_eq, bind_eq]
      exact .inl (by rw [andThen, andThen, hwrite])
  · exact hrplain ((Value.keys_eq_iff h hqplain).mp (keys_eq_of_resolve hg hid hid'))

/-- A page with a list of one element. -/
def listPage : Page Unit := assemble ⟨.record [("l", .list [.null])], [], [], []⟩ [] [] .blank ()

/-- The element by its index and by its numeral, and by a numeral with a zero in front: all three are
written alike, but the node of the element hears of the first two only. -/
theorem assign_respelled_element :
    assign (interpret 3) 3 [.field "l", .index 0] (.bool true) listPage
        = assign (interpret 3) 3 [.field "l", .field "0"] (.bool true) listPage ∧
      listPage.graph.resolve [.field "l", .index 0] = some 2 ∧
      listPage.graph.resolve [.field "l", .field "00"] ≠ some 2 := by
  have hsame : ∀ s, s.element? = some 0 →
      listPage.data.SameMember [.field "l", .index 0] [.field "l", s] := fun s hs =>
    .step rfl rfl (.last ⟨0, Nat.zero_le _, rfl, hs⟩)
  have hresolve : listPage.graph.resolve [.field "l", .index 0] = some 2 := by rfl
  have hreached : Reached .plain ⟨.record [("l", .list [.null])], [], [], []⟩ listPage :=
    .start [] [] .blank ()
  have hgrown : Grown listPage.graph := (Plain.of_reached (by decide) hreached).grown
  have hspelled := fun s hs =>
    @assign_respelled Unit listPage (interpret 3) 3 (.bool true) _ _ (hsame s hs) rfl
  obtain ⟨-, heq, -⟩ := hspelled (.field "0") (by decide)
  obtain ⟨-, -, hne⟩ := hspelled (.field "00") (by decide)
  refine ⟨?_, hresolve, hne hgrown (by decide) (by decide) 2 hresolve⟩
  rcases heq (by decide) (by decide) with heq | ⟨message, hfailed, -⟩
  · exact heq
  · have hdone : ∃ p', assign (interpret 3) 3 [.field "l", .index 0] (.bool true) listPage
        = .done () p' := ⟨_, rfl⟩
    obtain ⟨p', hdone⟩ := hdone
    rw [hdone] at hfailed
    cases hfailed

end Page

end ReactiveView
