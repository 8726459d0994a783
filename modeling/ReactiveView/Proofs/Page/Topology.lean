import ReactiveView.Proofs.Page.Coverage
/-!
# The graphs of pages

As long as no program edits the graph by hand, the graph of a page is the tree of its data with the
computed nodes beside it, whatever has been written and observed meanwhile. Nodes stay where they
are. New ones come from growing only, and go behind those that are there.

A node keeps the path it was made with. When a record with numerals for its fields gives way to a
list, the members of the list find the nodes of the fields, for they have the same keys; and what is
new below them is reached by indices where the path of the node above it has fields. So the path of
a node follows the one of its parent key by key, but not segment by segment.

Results:
* `Grows.extends`: growing leaves every node in its place.
* `topology_of_reached`: where the nodes of a page lie, and what runs do to them.
* `relisted_respells`: a node whose path does not start with the path of its parent.
-/
namespace ReactiveView

namespace Graph

variable {ω : Type} {g g' g'' : Graph ω} {ok : Path → Prop}

/-- A graph with all nodes of another one in their places, and perhaps new nodes behind them. -/
structure Extends (g g' : Graph ω) : Prop where
  place : ∀ i, i < g.forest.size → g'.place? i = g.place? i
  parent : ∀ i, i < g.forest.size → g'.forest.parent? i = g.forest.parent? i
  children : ∀ i, g.forest.children i <+: g'.forest.children i
  size : g.forest.size ≤ g'.forest.size
  computed : g'.computed = g.computed

/-- The nodes with a computed source are listed as the computed ones. -/
def Listed (g : Graph ω) : Prop := ∀ i k name, g.place? i = some (k, .computed name) → i ∈ g.computed

theorem SameShape.extends (h : SameShape g g') : Extends g g' where
  place i _ := h.place i
  parent i _ := h.parent i
  children i := h.children i ▸ List.prefix_refl _
  size := Nat.le_of_eq h.size.symm
  computed := h.computed

theorem Extends.trans (h : Extends g g') (h' : Extends g' g'') : Extends g g'' where
  place i hi := (h'.place i (Nat.lt_of_lt_of_le hi h.size)).trans (h.place i hi)
  parent i hi := (h'.parent i (Nat.lt_of_lt_of_le hi h.size)).trans (h.parent i hi)
  children i := (h.children i).trans (h'.children i)
  size := Nat.le_trans h.size h'.size
  computed := h'.computed.trans h.computed

theorem extends_pushChild (hl : g.forest.Linked) {p : Nat} (hp : p < g.forest.size) (key : String)
    (source : Source) : Extends g (g.pushChild p key source) where
  place i hi := by rw [place?_pushChild, if_neg (Nat.ne_of_lt hi)]
  parent i hi := by rw [parent?_pushChild, if_neg (Nat.ne_of_lt hi)]
  children i := by
    rw [children_pushChild hl hp]
    split
    · exact List.prefix_append _ _
    · exact List.prefix_refl _
  size := by
    rw [size_pushChild]
    exact Nat.le_succ _
  computed := rfl

/-- Growing leaves every node in its place. -/
theorem Grows.extends (h : Grows ok g g') (hg : Grown g) : Extends g g' := by
  induction h with
  | refl => exact (SameShape.refl g).extends
  | push h hp hkeys hs _ ih =>
    exact ih.trans (extends_pushChild (h.grown hg).linked (lt_of_location? hp) _ _)

theorem SameShape.listed (h : SameShape g g') (hg : Listed g) : Listed g' := by
  intro i k name hi
  rw [h.computed]
  exact hg i k name ((h.place i).symm.trans hi)

theorem Grows.listed (h : Grows ok g g') (hg : Listed g) : Listed g' := by
  intro i k name hi
  rw [h.computed]
  rcases h.source hi with hold | ⟨path, s, hsource, -⟩
  · exact hg i k name hold
  · cases hsource

theorem listed_bare : Listed (bare : Graph ω) := by
  intro i k name hi
  obtain rfl := lt_bare hi
  cases hi

theorem listed_insertComputed (hg : Listed g) (name : String) :
    Listed (g.insertComputed name).2 := by
  intro i k name' hi
  rw [place?_insertComputed] at hi
  split at hi
  · next heq => exact List.mem_append_right _ (List.mem_singleton.mpr heq)
  · exact List.mem_append_left _ (hg i k name' hi)

/-- Every node but the root and the computed ones has a parent. Its path has the keys of the
parent's path, and its own key last. -/
theorem exists_parent (hg : Grown g) (hlisted : Listed g) {i : Nat} (hi : g.contains i)
    (hroot : i ≠ root) (hcomputed : i ∉ g.computed) : ∃ p base path s,
      g.forest.parent? i = some p ∧ g.location? p = some base ∧
      g.place? i = some (Segment.key s, .data (path ++ [s])) ∧ Path.keys path = base.keys := by
  rw [contains_eq] at hi
  obtain ⟨⟨k, source⟩, hplace⟩ := Option.isSome_iff_exists.mp hi
  cases source with
  | root => exact absurd (hg.rootOnly i k hplace) hroot
  | computed name => exact absurd (hlisted i k name hplace) hcomputed
  | data path =>
    obtain ⟨p, hp⟩ := hg.member i k path hplace
    obtain ⟨base, path', s, hbase, hs, hkeys⟩ := hg.child i p hp
    exact ⟨p, base, path', s, hp, hbase, hs, hkeys⟩

end Graph

namespace Page

open ReactiveView.Graph Relation Run

variable {σ : Type} {p p' : Page σ} {options : Options σ}

/-- Everything may be written, and the graph is not edited by hand. -/
def Rules.handsOff : Rules σ where
  write _ _ _ := True
  graph _ := False

/-- Everything may be written, and no nodes are added to the graph. -/
def Rules.still : Rules σ where
  write _ _ _ := True
  graph _ := False
  grow := False

/-- The policy that admits everything but edits of the graph by hand. -/
def Policy.handsOff : Policy σ
  | _, .graph _ => false
  | _, _ => true

/-- The policy that admits neither edits of the graph by hand nor growing. -/
def Policy.still : Policy σ
  | _, .graph _ => false
  | _, .grow _ => false
  | _, _ => true

theorem Policy.handsOff_enforces : (Policy.handsOff : Policy σ).Enforces .handsOff := by
  intro p c hc
  refine Command.allowed (fun _ _ _ => trivial) p ?_ fun _ _ => trivial
  rintro e rfl
  cases hc

theorem Policy.still_enforces : (Policy.still : Policy σ).Enforces .still := by
  intro p c hc
  refine Command.allowed (fun _ _ _ => trivial) p ?_ ?_
  · rintro e rfl
    cases hc
  · rintro source rfl
    cases hc

theorem laid_of_reached (h : Reached .handsOff options p) : p.graph.Grown ∧ p.graph.Listed := by
  refine h.keeps (I := fun p => p.graph.Grown ∧ p.graph.Listed) Policy.handsOff_enforces
    (fun registry scopes surface host _ => ?_) (fun p p' hchange hp => ?_) fun _ hp => hp
  · refine assemble_graph (J := fun g => g.Grown ∧ g.Listed) ⟨grown_ofData _, ?_⟩
      (fun g name _ hg => ⟨grown_insertComputed hg.1 name, listed_insertComputed hg.2 name⟩)
      (fun g g' id w _ ho hg => ?_) registry scopes surface host
    · exact (grows_ofData options.data).listed listed_bare
    · have hshape := sameShape_observe ho
      exact ⟨hshape.grown hg.1, hshape.listed hg.2⟩
  · rcases hchange.data_graph (fun _ he => he) hp.1 with ⟨hshape, -⟩ | ⟨-, -, _, _, _, -, -, hgrows⟩
    · exact ⟨hshape.grown hp.1, hshape.listed hp.2⟩
    · exact ⟨hgrows.grown hp.1, hgrows.listed hp.2⟩

/-- Changes leave every node in its place unless the graph is edited by hand. -/
theorem extends_of_changes (hg : p.graph.Grown) (h : ReflTransGen (Change .handsOff) p p') :
    p.graph.Extends p'.graph := by
  have hkeeps : ∀ q q', Change .handsOff q q' → q.graph.Grown ∧ p.graph.Extends q.graph →
      q'.graph.Grown ∧ p.graph.Extends q'.graph := by
    rintro q q' hchange ⟨hgrown, hextends⟩
    rcases hchange.data_graph (fun _ he => he) hgrown with
      ⟨hshape, -⟩ | ⟨-, -, _, _, _, -, -, hgrows⟩
    · exact ⟨hshape.grown hgrown, hextends.trans hshape.extends⟩
    · exact ⟨hgrows.grown hgrown, hextends.trans (hgrows.extends hgrown)⟩
  exact (keeps_of_steps hkeeps ⟨hg, (SameShape.refl _).extends⟩ h).2

/-- Changes other than edits by hand and growing keep the shape of the graph. -/
theorem sameShape_of_changes (hg : p.graph.Grown) (h : ReflTransGen (Change .still) p p') :
    SameShape p.graph p'.graph := by
  refine keeps_of_steps (I := fun q => SameShape p.graph q.graph) (fun q q' hchange hshape => ?_)
    (SameShape.refl _) h
  rcases hchange.data_graph (fun _ he => he) (hshape.grown hg) with ⟨hsame, -⟩ | ⟨hgrow, -⟩
  · exact hshape.trans hsame
  · exact absurd hgrow id

/-- On every page that comes about without edits of the graph by hand: the root is the source of all
data and has no parent. Every other node that is not computed has a parent, and a path that follows
the parent's path key by key and ends with the node's key. Siblings have different keys, and so have
the paths of any two nodes. Computed nodes have neither a parent nor children. A run leaves every
node in its place, and adds nodes only if something on the way is grown. -/
theorem topology_of_reached (h : Reached .handsOff options p) :
    p.graph.place? root = some (rootKey, .root) ∧ p.graph.forest.parent? root = none ∧
    (∀ i, p.graph.contains i → i ≠ root → i ∉ p.graph.computed → ∃ parent base path s,
      p.graph.forest.parent? i = some parent ∧ p.graph.location? parent = some base ∧
      p.graph.place? i = some (Segment.key s, .data (path ++ [s])) ∧
      Path.keys path = base.keys) ∧
    (∀ c d parent, p.graph.forest.parent? c = some parent → p.graph.forest.parent? d = some parent →
      (p.graph.place? c).map (·.1) = (p.graph.place? d).map (·.1) → c = d) ∧
    (∀ i j q r, p.graph.location? i = some q → p.graph.location? j = some r → q.keys = r.keys →
      i = j) ∧
    (∀ i ∈ p.graph.computed, p.graph.forest.parent? i = none ∧ p.graph.forest.children i = [] ∧
      ∃ name, p.graph.place? i = some (name, .computed name)) ∧
    ∀ (depth : Nat) (program : Program σ) (p' : Page σ),
      ((∃ v, interpret depth program p = .done v p') ∨
        ∃ e, interpret depth program p = .failed e p') →
      (Obeys .handsOff depth program p → p.graph.Extends p'.graph) ∧
      (Obeys .still depth program p → SameShape p.graph p'.graph) := by
  obtain ⟨hgrown, hlisted⟩ := laid_of_reached h
  refine ⟨hgrown.root, hgrown.top, fun i => exists_parent hgrown hlisted, hgrown.distinct,
    fun i j q r hi hj => eq_of_keys_eq hgrown hi hj, fun i => alone_of_mem_computed hgrown,
    fun depth program p' hrun => ⟨fun hobeys => ?_, fun hobeys => ?_⟩⟩
  · exact extends_of_changes hgrown (hobeys.changes Policy.handsOff_enforces hrun)
  · exact sameShape_of_changes hgrown (hobeys.changes Policy.still_enforces hrun)

/-! ## A numeral that was a field and becomes an index -/

/-- A record with a numeral for its only field. -/
def relistedOptions : Options Unit := ⟨.record [("l", .record [("0", .null)])], [], [], []⟩

/-- A list in the place of the record, and nodes for its members. -/
def relisting : Program Unit :=
  .tell (.set "l" (.list [.record [("a", .null)]])) fun _ => .tell (.grow "l") fun _ => .done .null

def recordPage : Page Unit := assemble relistedOptions [] [] .blank ()

def relistedPage : Page Unit := (interpret 4 relisting recordPage).stateD recordPage

theorem interpret_relisting : ∃ v, interpret 4 relisting recordPage = .done v relistedPage :=
  Outcome.exists_eq_done (by decide +kernel) recordPage

theorem obeys_relisting : Obeys .handsOff 4 relisting recordPage :=
  Outcome.ne_exhausted (by decide +kernel)

theorem reached_relistedPage : Reached .handsOff relistedOptions relistedPage := by
  obtain ⟨v, hrun⟩ := interpret_relisting
  exact .done (.start [] [] .blank ()) obeys_relisting hrun

/-- A node whose path does not start with the path of its parent. -/
theorem relisted_respells : Reached .handsOff relistedOptions relistedPage ∧
    ¬∀ i, relistedPage.graph.contains i → i ≠ root → i ∉ relistedPage.graph.computed →
      ∃ parent base s, relistedPage.graph.forest.parent? i = some parent ∧
        relistedPage.graph.location? parent = some base ∧
        relistedPage.graph.place? i = some (Segment.key s, .data (base ++ [s])) := by
  refine ⟨reached_relistedPage, fun h => ?_⟩
  obtain ⟨parent, base, s, hparent, hbase, hplace⟩ :=
    h 3 (by decide +kernel) (by decide) (by decide +kernel)
  have hparent' : relistedPage.graph.forest.parent? 3 = some 2 := by decide +kernel
  rw [hparent'] at hparent
  cases hparent
  have hbase' : relistedPage.graph.location? 2 = some [.field "l", .field "0"] := by decide +kernel
  rw [hbase'] at hbase
  cases hbase
  have hplace' : relistedPage.graph.place? 3
      = some ("a", .data [.field "l", .index 0, .field "a"]) := by decide +kernel
  rw [hplace'] at hplace
  have hpath := congrArg Prod.snd (Option.some.inj hplace)
  cases hpath

/-- The new node lies below the node of the field, whose path has the same keys; and the nodes of
the field and of the list are where they were. -/
theorem topology_of_reached_relisted : Reached .handsOff relistedOptions relistedPage ∧
    (∃ parent base path s, relistedPage.graph.forest.parent? 3 = some parent ∧
      relistedPage.graph.location? parent = some base ∧
      relistedPage.graph.place? 3 = some (Segment.key s, .data (path ++ [s])) ∧
      Path.keys path = base.keys) ∧
    recordPage.graph.Extends relistedPage.graph := by
  obtain ⟨-, -, hmember, -⟩ := topology_of_reached reached_relistedPage
  have hstart : Reached .handsOff relistedOptions recordPage := .start [] [] .blank ()
  obtain ⟨-, -, -, -, -, -, hruns⟩ := topology_of_reached hstart
  refine ⟨reached_relistedPage,
    hmember 3 (by decide +kernel) (by decide) (by decide +kernel), ?_⟩
  exact (hruns 4 relisting relistedPage (.inl interpret_relisting)).1 obeys_relisting

end Page

end ReactiveView
