import ReactiveView.Proofs.Graph.Regrowth
import ReactiveView.Proofs.Page.Topology
/-!
# Observing again

A page grows its graph by the value that lies at a node now, whatever the node was made for. How
many nodes that makes is how many members of the value have keys that lead nowhere from the node.
Doing it again makes none.

Results:
* `grow_of_locate`: growing at what an expression text names.
* `regrown_of_seeded`: the same for every graph that a builder makes, and every page.
-/
namespace ReactiveView

theorem Value.isDistinct_member? {v w : Value} (hv : v.isDistinct) {s : Segment}
    (h : v.member? s = some w) : w.isDistinct := by
  cases v with
  | list items =>
    obtain ⟨i, -, hi⟩ := Option.bind_eq_some_iff.mp h
    exact areDistinct_iff.mp hv w (List.mem_of_getElem? hi)
  | record entries =>
    exact areDistinctEntries_iff.mp (Bool.and_eq_true_iff.mp hv).2 _ (mem_of_get? h)
  | null => cases h
  | bool b => cases h
  | number n => cases h
  | text s => cases h

/-- No record below data without repeated keys has one. -/
theorem Value.isDistinct_at? {v w : Value} (hv : v.isDistinct) {path : Path}
    (h : v.at? path = some w) : w.isDistinct := by
  induction path generalizing v with
  | nil =>
    cases h
    exact hv
  | cons s rest ih =>
    obtain ⟨u, hu, hrest⟩ := Option.bind_eq_some_iff.mp h
    exact ih (isDistinct_member? hv hu) hrest

namespace Page

open ReactiveView.Graph Run

variable {σ : Type} {p : Page σ} {options : Options σ} {source : String} {id : Nat}
  {property : Property (Observer σ)}

/-- The value by which a page grows its graph at a node: what lies at the node's path now. Nothing
is below what is absent, and nothing below a computed property. -/
def observable (data : Value) : Source → Value
  | .root => data
  | .data path => (data.at? path).getD .null
  | .computed _ => .null

theorem isDistinct_observable {data : Value} (hdata : data.isDistinct) (source : Source) :
    (observable data source).isDistinct := by
  cases source with
  | root => exact hdata
  | data path =>
    rw [observable]
    cases hv : data.at? path with
    | none => rfl
    | some v => exact Value.isDistinct_at? hdata hv
  | computed name => rfl

/-- Growing counts the nodes that it makes, and does nothing else. -/
theorem grow_eq_done (hid : p.graph.locate source = some id)
    (hproperty : p.graph.property? id = some property) (hroot : property.source = .root → id = root)
    {graph : Graph (Observer σ)}
    (hgrow : p.graph.grow (observable p.data property.source) id
      (property.source.path?.getD []) = .ok graph) :
    grow source p = .done (graph.size - p.graph.size) { p with graph } := by
  have hread : p.graph.property id = .ok property := property_eq_ok.mpr hproperty
  have hsettle : ∀ (v : Value) (i : Nat) (base : Path), p.graph.grow v i base = .ok graph →
      (onGraph fun g => g.settle (g.grow v i base)) p = .done () { p with graph } := by
    intro v i base h
    simp only [onGraph, Run.edit, h, Graph.settle]
  have hanswer : (ofExcept (.ok property) : Run (Page σ) _) p = .done property p := rfl
  simp only [grow, bind_eq, andThen, look, hid, hread, hanswer]
  cases hs : property.source with
  | root =>
    rw [hs, hroot hs] at hgrow
    exact (bind_of_done (hsettle p.data root [] hgrow)).trans rfl
  | data path =>
    rw [hs] at hgrow
    cases hv : p.data.at? path with
    | some v =>
      simp only [observable, hv, Option.getD_some] at hgrow ⊢
      exact (bind_of_done (hsettle v id path hgrow)).trans rfl
    | none =>
      simp only [observable, hv, Option.getD_none] at hgrow ⊢
      cases hgrow
      rfl
  | computed name =>
    rw [hs] at hgrow
    cases hgrow
    rfl

/-- Growing at what an expression text names, once and once more. -/
theorem grow_of_locate (hg : p.graph.Grown) (hdata : p.data.isDistinct)
    (hid : p.graph.locate source = some id) : ∃ property graph,
      p.graph.property? id = some property ∧
      Regrown p.graph (observable p.data property.source) id graph ∧
      grow source p = .done ((observable p.data property.source).memberPaths.countP
        fun path => (p.graph.walk id path.keys).isNone) { p with graph } ∧
      grow source { p with graph } = .done 0 { p with graph } := by
  have hcontains := contains_of_locate hg hid
  obtain ⟨property, hproperty⟩ := Option.isSome_iff_exists.mp hcontains
  have hplace : p.graph.place? id = some (property.key, property.source) := by
    rw [place?, hproperty]
    rfl
  have hroot : property.source = .root → id = root := by
    intro hs
    rw [hs] at hplace
    exact hg.rootOnly id _ hplace
  obtain ⟨graph, hgrow, hregrown⟩ := regrown_of_grow hg.tidy
    (isDistinct_observable hdata property.source) hcontains (property.source.path?.getD [])
  have hfirst := grow_eq_done hid hproperty hroot hgrow
  rw [hregrown.count, Nat.add_sub_cancel_left] at hfirst
  have hagain : graph.locate source = some id := by
    obtain ⟨path, hpath, hlocate⟩ := exists_path_of_locate hid
    rw [hlocate]
    rcases resolve_eq_some hg hpath with hwalk | ⟨s, -, -, hs, -⟩
    · exact resolve_of_walk (hregrown.walk root _ id hwalk)
    · -- nothing is made at a computed node
      have hsource : property.source = .computed s.key :=
        congrArg Prod.snd (Option.some.inj (hplace.symm.trans hs))
      rw [hsource] at hgrow
      cases hgrow
      exact hpath
  have hsame : graph.property? id = some property :=
    (hregrown.kept id hcontains).1.trans hproperty
  have hsecond := grow_eq_done (p := { p with graph }) hagain hsame hroot
    (hregrown.again (property.source.path?.getD []))
  rw [Nat.sub_self] at hsecond
  exact ⟨property, graph, hproperty, hregrown, hfirst, hsecond⟩

/-- Whatever a builder has made of a graph, a value can be passed to it at any node: what is there is
kept, a node is made for each member whose keys lead nowhere, and then the keys of every member lead
to one node. So a page that grows at what a text names answers how many members of the value there
had no node, and answers zero when it does so again. -/
theorem regrown_of_seeded {ω : Type} :
    (∀ (g : Graph ω) (v : Value) (id : Nat) (base : Path), Seeded g → v.isDistinct →
      g.contains id → ∃ g', g.grow v id base = .ok g' ∧ Regrown g v id g') ∧
    ∀ (options : Options σ) (p : Page σ) (source : String), Reached .handsOff options p →
      p.data.isDistinct →
      (p.graph.locate source = none → grow source p = .failed (.pathNotFound source) p) ∧
      ∀ id, p.graph.locate source = some id → ∃ property graph,
        p.graph.property? id = some property ∧
        Regrown p.graph (observable p.data property.source) id graph ∧
        grow source p = .done ((observable p.data property.source).memberPaths.countP
          fun path => (p.graph.walk id path.keys).isNone) { p with graph } ∧
        grow source { p with graph } = .done 0 { p with graph } := by
  refine ⟨fun g v id base hg hv hid => regrown_of_grow (tidy_of_seeded hg) hv hid base,
    fun options p source hp hdata => ⟨fun hnone => ?_, fun id hid => ?_⟩⟩
  · simp only [grow, bind_eq, andThen, look, hnone]
    rfl
  · exact grow_of_locate (laid_of_reached hp).1 hdata hid

/-! ## A list in the place of a record -/

/-- A list in the place of the record with a numeral for its only field. -/
def replacing : Program Unit :=
  .tell (.set "l" (.list [.record [("a", .null)]])) fun _ => .done .null

def replacedPage : Page Unit := (interpret 4 replacing recordPage).stateD recordPage

theorem reached_replacedPage : Reached .handsOff relistedOptions replacedPage := by
  obtain ⟨v, hrun⟩ : ∃ v, interpret 4 replacing recordPage = .done v replacedPage :=
    Outcome.exists_eq_done (by decide +kernel) recordPage
  have hstart : Reached .handsOff relistedOptions recordPage := .start [] [] .blank ()
  exact .done hstart (Outcome.ne_exhausted (by decide +kernel)) hrun

/-- A value with more members than the nested one, and with fewer. -/
def lengthened : Value := .record [("a", .list [.null, .null, .null]), ("c", .null)]

/-- Passing another value to the graph of the nested one makes nodes for a third element and for a
second field. The element of the list that replaced a record finds the node of the numeral, and has
a field that is new. -/
theorem regrown_of_seeded_replaced :
    (∃ g' : Graph Unit, (ofData nested).grow lengthened root [] = .ok g' ∧
      g'.size = (ofData nested : Graph Unit).size + 2) ∧
    ∃ graph, grow "l" replacedPage = .done 1 { replacedPage with graph } ∧
      grow "l" { replacedPage with graph } = .done 0 { replacedPage with graph } := by
  have hseeded : Seeded (ofData nested : Graph Unit) := .grow .bare nested root []
  obtain ⟨hgraph, hpage⟩ := regrown_of_seeded (σ := Unit) (ω := Unit)
  obtain ⟨g', hgrow, hregrown⟩ :=
    hgraph (ofData nested) lengthened root [] hseeded (by decide) (by decide)
  have htwo : (lengthened.memberPaths.countP
      fun path => ((ofData nested : Graph Unit).walk root path.keys).isNone) = 2 := by
    decide +kernel
  obtain ⟨property, graph, hproperty, -, hfirst, hagain⟩ :=
    (hpage relistedOptions replacedPage "l" reached_replacedPage (by decide +kernel)).2 1
      (by decide +kernel)
  have hplace : replacedPage.graph.place? 1 = some ("l", .data [.field "l"]) := by decide +kernel
  rw [place?, hproperty] at hplace
  have hsource : property.source = .data [.field "l"] :=
    congrArg Prod.snd (Option.some.inj hplace)
  have hone : ((observable replacedPage.data (.data [.field "l"])).memberPaths.countP
      fun path => (replacedPage.graph.walk 1 path.keys).isNone) = 1 := by
    decide +kernel
  rw [hsource, hone] at hfirst
  exact ⟨⟨g', hgrow, by rw [hregrown.count, htwo]⟩, graph, hfirst, hagain⟩

end Page

end ReactiveView
