import ReactiveView.Graph.Growth
import ReactiveView.Proofs.Forest.Links
import ReactiveView.Proofs.Value.Write
/-!
# The shape of observable graphs

What a graph is apart from its observers and recorded values: keys, sources and links. `Grown` is
the shape that graphs have as long as their links are not edited by hand: a node lies below the node
of the data around it, and the keys on the way to it are those of the path that is its source. The
path itself may be spelled in another way, since an index and its numeral have one key.

Results:
* `grown_bare`, `grown_insertComputed`, `grown_pushChild`, `SameShape.grown`: what has the shape,
  and what keeps it.
-/
namespace ReactiveView

/-- The path to the data of a source, if it has a place in the data. -/
def Source.path? : Source → Option Path
  | .root => some []
  | .data path => some path
  | .computed _ => none

namespace Graph

variable {ω : Type} {g g' : Graph ω}

/-- The key and the source of a node. -/
def place? (g : Graph ω) (i : Nat) : Option (String × Source) :=
  (g.property? i).map fun p => (p.key, p.source)

/-- The path to the data of a node. -/
def location? (g : Graph ω) (i : Nat) : Option Path := (g.place? i).bind (·.2.path?)

/-- Nodes lie in the graph as their data lies in the data. -/
structure Grown (g : Graph ω) : Prop where
  linked : g.forest.Linked
  root : g.place? root = some (rootKey, .root)
  top : g.forest.parent? Graph.root = none
  rootOnly : ∀ i k, g.place? i = some (k, .root) → i = Graph.root
  /-- Parents are older than their children, so no node is above itself. -/
  older : ∀ c p, g.forest.parent? c = some p → p < c
  /-- The path of a child has the keys of its parent's path, and its own key last. -/
  child : ∀ c p, g.forest.parent? c = some p → ∃ (base path : Path) (s : Segment),
    g.location? p = some base ∧ g.place? c = some (s.key, .data (path ++ [s])) ∧
      path.keys = base.keys
  member : ∀ i k path, g.place? i = some (k, .data path) → ∃ p, g.forest.parent? i = some p
  distinct : ∀ c d p, g.forest.parent? c = some p → g.forest.parent? d = some p →
    (g.place? c).map (·.1) = (g.place? d).map (·.1) → c = d
  computed : ∀ i ∈ g.computed, ∃ name, g.place? i = some (name, .computed name)

/-- Two graphs that differ in observers and recorded values only. -/
structure SameShape (g g' : Graph ω) : Prop where
  place : ∀ i, g'.place? i = g.place? i
  parent : ∀ i, g'.forest.parent? i = g.forest.parent? i
  children : ∀ i, g'.forest.children i = g.forest.children i
  size : g'.forest.size = g.forest.size
  computed : g'.computed = g.computed

theorem SameShape.refl (g : Graph ω) : SameShape g g :=
  ⟨fun _ => rfl, fun _ => rfl, fun _ => rfl, rfl, rfl⟩

theorem SameShape.trans {g₁ g₂ g₃ : Graph ω} (h : SameShape g₁ g₂) (h' : SameShape g₂ g₃) :
    SameShape g₁ g₃ where
  place i := (h'.place i).trans (h.place i)
  parent i := (h'.parent i).trans (h.parent i)
  children i := (h'.children i).trans (h.children i)
  size := h'.size.trans h.size
  computed := h'.computed.trans h.computed

theorem SameShape.location (h : SameShape g g') (i : Nat) : g'.location? i = g.location? i := by
  unfold location?
  rw [h.place]

theorem SameShape.grown (h : SameShape g g') (hg : Grown g) : Grown g' where
  linked :=
    ⟨fun i c => by rw [h.children, h.parent]; exact hg.linked.iff i c,
      fun i => by rw [h.children]; exact hg.linked.nodup i⟩
  root := (h.place root).trans hg.root
  top := (h.parent Graph.root).trans hg.top
  rootOnly i k := by rw [h.place]; exact hg.rootOnly i k
  older c p := by rw [h.parent]; exact hg.older c p
  child c p hp := by
    rw [h.parent] at hp
    obtain ⟨base, path, s, hbase, hc, hkeys⟩ := hg.child c p hp
    exact ⟨base, path, s, (h.location p).trans hbase, (h.place c).trans hc, hkeys⟩
  member i k path := by rw [h.place, h.parent]; exact hg.member i k path
  distinct c d p := by rw [h.parent, h.parent, h.place, h.place]; exact hg.distinct c d p
  computed i hi := by
    rw [h.computed] at hi
    rw [h.place]
    exact hg.computed i hi

/-! ## What a change does to places -/

theorem property?_mapProperty (i : Nat) (f : Property ω → Property ω) (j : Nat) :
    (g.mapProperty i f).property? j
      = if i = j then (g.property? j).map f else g.property? j := by
  unfold property? mapProperty
  rw [Forest.content?_mapContent]
  split
  · cases g.forest.content? j with
    | none => rfl
    | some slot => cases slot <;> rfl
  · rfl

/-- Changes of observers and recorded values keep the shape. -/
theorem sameShape_mapProperty (i : Nat) {f : Property ω → Property ω}
    (hf : ∀ p, (f p).key = p.key ∧ (f p).source = p.source) : SameShape g (g.mapProperty i f) where
  place j := by
    unfold place?
    rw [property?_mapProperty]
    split
    · cases g.property? j with
      | none => rfl
      | some p => exact congrArg some (Prod.ext (hf p).1 (hf p).2)
    · rfl
  parent j := Forest.parent?_mapContent _ _ j
  children j := Forest.children_mapContent _ _ j
  size := Forest.size_mapContent _ _
  computed := rfl

theorem sameShape_setPrevious {i : Nat} {v : Value} (h : g.setPrevious i v = .ok g') :
    SameShape g g' := by
  unfold setPrevious at h
  split at h
  · cases h
    exact sameShape_mapProperty i fun _ => ⟨rfl, rfl⟩
  · cases h

theorem sameShape_observe {i : Nat} {o : ω} (h : g.observe i o = .ok g') : SameShape g g' := by
  unfold observe at h
  split at h
  · cases h
    exact sameShape_mapProperty i fun _ => ⟨rfl, rfl⟩
  · cases h

theorem lt_of_place? {i : Nat} {x : String × Source} (h : g.place? i = some x) :
    i < g.forest.size := by
  obtain ⟨p, hp, -⟩ := Option.map_eq_some_iff.mp h
  obtain ⟨slot, hslot, -⟩ := Option.bind_eq_some_iff.mp hp
  exact Forest.lt_of_content? hslot

theorem lt_of_location? {i : Nat} {path : Path} (h : g.location? i = some path) :
    i < g.forest.size := by
  obtain ⟨x, hx, -⟩ := Option.bind_eq_some_iff.mp h
  exact lt_of_place? hx

theorem place?_push (key : String) (source : Source) (i : Nat) : (g.push key source).place? i
    = if i = g.forest.size then some (key, source) else g.place? i := by
  unfold place? property? push
  rw [Forest.content?_push]
  split <;> rfl

theorem place?_attach (p c i : Nat) : (g.attach p c).place? i = g.place? i := by
  unfold place? property? attach
  rw [Forest.content?_attach]

theorem place?_pushChild (p : Nat) (key : String) (source : Source) (i : Nat) :
    (g.pushChild p key source).place? i
      = if i = g.forest.size then some (key, source) else g.place? i := by
  unfold pushChild
  rw [place?_attach, place?_push]

theorem parent?_pushChild (p : Nat) (key : String) (source : Source) (i : Nat) :
    (g.pushChild p key source).forest.parent? i
      = if i = g.forest.size then some p else g.forest.parent? i := by
  have hlt : g.forest.size < (g.push key source).forest.size := by simp [push]
  refine (Forest.parent?_attach hlt p i).trans ?_
  simp only [push, Forest.parent?_push, eq_comm]

theorem size_pushChild (p : Nat) (key : String) (source : Source) :
    (g.pushChild p key source).forest.size = g.forest.size + 1 := by
  simp [pushChild, attach, push]

/-- A new child has what it was made with; the other nodes have what they had. -/
theorem property?_pushChild (p : Nat) (key : String) (source : Source) (i : Nat) :
    (g.pushChild p key source).property? i
      = if i = g.forest.size then some ⟨key, source, [], none⟩ else g.property? i := by
  unfold pushChild property? attach push
  rw [Forest.content?_attach, Forest.content?_push]
  split <;> rfl

/-- A new child comes behind the children that its parent has. -/
theorem children_pushChild (hl : g.forest.Linked) {p : Nat} (hp : p < g.forest.size) (key : String)
    (source : Source) (i : Nat) : (g.pushChild p key source).forest.children i
      = if p = i then g.forest.children i ++ [g.forest.size] else g.forest.children i := by
  -- the new node was nowhere a child before
  have htop : (g.push key source).forest.parent? g.forest.size = none :=
    (Forest.parent?_push _ _).trans (Forest.parent?_of_size_le (Nat.le_refl _))
  refine (Forest.children_attach_of_top (Forest.linked_push hl _) ?_ htop i).trans ?_
  · rw [Forest.size_push]
    exact Nat.lt_succ_of_lt hp
  · rw [Forest.children_push]

/-! ## Changes that keep graphs grown -/

theorem linked_pushChild (hl : g.forest.Linked) {p : Nat} (hp : p < g.forest.size) (key : String)
    (source : Source) : (g.pushChild p key source).forest.Linked := by
  refine Forest.linked_attach (Forest.linked_push hl _) ?_ ?_
  · simp; omega
  · simp

theorem parent?_bare (i : Nat) : (bare : Graph ω).forest.parent? i = none := by
  unfold bare
  rw [Forest.parent?_push]
  rfl

theorem lt_bare {i : Nat} {x : String × Source} (h : (bare : Graph ω).place? i = some x) :
    i = root := by
  have hlt : i < (bare : Graph ω).forest.size := lt_of_place? h
  have hsize : (bare : Graph ω).forest.size = 1 := rfl
  rw [hsize] at hlt
  exact Nat.lt_one_iff.mp hlt

theorem grown_bare : Grown (bare : Graph ω) where
  linked := Forest.linked_push Forest.linked_empty _
  root := rfl
  top := parent?_bare _
  rootOnly i k h := lt_bare h
  older c p h := by rw [parent?_bare] at h; cases h
  child c p h := by rw [parent?_bare] at h; cases h
  member i k path h := by
    obtain rfl := lt_bare h
    cases h
  distinct c d p h := by rw [parent?_bare] at h; cases h
  computed i h := absurd h List.not_mem_nil

theorem place?_insertComputed (name : String) (i : Nat) : (g.insertComputed name).2.place? i
    = if i = g.forest.size then some (name, .computed name) else g.place? i :=
  place?_push name (.computed name) i

theorem parent?_insertComputed (name : String) (i : Nat) :
    (g.insertComputed name).2.forest.parent? i = g.forest.parent? i :=
  Forest.parent?_push _ i

theorem location?_eq_of_lt {i n : Nat} {x : String × Source} (hi : i < n)
    (h : g'.place? i = if i = n then some x else g.place? i) : g'.location? i = g.location? i := by
  unfold location?
  rw [h, if_neg (Nat.ne_of_lt hi)]

theorem grown_insertComputed (hg : Grown g) (name : String) :
    Grown (g.insertComputed name).2 where
  linked := Forest.linked_push hg.linked _
  root := by
    rw [place?_insertComputed, if_neg (Nat.ne_of_lt (lt_of_place? hg.root))]
    exact hg.root
  top := (parent?_insertComputed name _).trans hg.top
  rootOnly i k h := by
    rw [place?_insertComputed] at h
    split at h
    · cases h
    · exact hg.rootOnly i k h
  older c p h := hg.older c p (parent?_insertComputed name c ▸ h)
  child c p h := by
    rw [parent?_insertComputed] at h
    obtain ⟨base, path, s, hbase, hc, hkeys⟩ := hg.child c p h
    refine ⟨base, path, s, ?_, ?_, hkeys⟩
    · exact (location?_eq_of_lt (lt_of_location? hbase) (place?_insertComputed name p)).trans hbase
    · rw [place?_insertComputed, if_neg (Nat.ne_of_lt (lt_of_place? hc))]
      exact hc
  member i k path h := by
    rw [place?_insertComputed] at h
    split at h
    · cases h
    · rw [parent?_insertComputed]
      exact hg.member i k path h
  distinct c d p hc hd h := by
    rw [parent?_insertComputed] at hc hd
    rw [place?_insertComputed, place?_insertComputed, if_neg (Nat.ne_of_lt (Forest.lt_of_parent? hc)),
      if_neg (Nat.ne_of_lt (Forest.lt_of_parent? hd))] at h
    exact hg.distinct c d p hc hd h
  computed i hi := by
    rcases List.mem_append.mp hi with hi | hi
    · obtain ⟨n, hn⟩ := hg.computed i hi
      refine ⟨n, ?_⟩
      rw [place?_insertComputed, if_neg (Nat.ne_of_lt (lt_of_place? hn))]
      exact hn
    · refine ⟨name, ?_⟩
      rw [place?_insertComputed, if_pos (List.mem_singleton.mp hi)]

theorem hasKey_iff {key : String} {i : Nat} :
    g.hasKey key i ↔ (g.place? i).map (·.1) = some key := by
  unfold hasKey place?
  cases g.property? i <;> simp

/-- No child of a node has a key that is not found among its children. -/
theorem key_ne_of_childByKey (hl : g.forest.Linked) {p c : Nat} {key : String}
    (h : g.childByKey p key = none) (hc : g.forest.parent? c = some p) :
    (g.place? c).map (·.1) ≠ some key := by
  intro hkey
  have hmem : c ∈ g.forest.children p := (hl.iff p c).mpr hc
  exact absurd (hasKey_iff.mpr hkey) (by simpa using List.find?_eq_none.mp h c hmem)

/-- The children of a node have different keys. -/
def SiblingsDiffer (g : Graph ω) : Prop := ∀ c d p, g.forest.parent? c = some p →
  g.forest.parent? d = some p → (g.place? c).map (·.1) = (g.place? d).map (·.1) → c = d

/-- A new child differs from the others if its key was not found among them. -/
theorem siblingsDiffer_pushChild (hl : g.forest.Linked) (hg : SiblingsDiffer g) {p : Nat}
    {key : String} (hkey : g.childByKey p key = none) (source : Source) :
    SiblingsDiffer (g.pushChild p key source) := by
  intro c d q hc hd h
  rw [place?_pushChild, place?_pushChild] at h
  rw [parent?_pushChild] at hc hd
  by_cases hc' : c = g.forest.size
  · by_cases hd' : d = g.forest.size
    · rw [hc', hd']
    · rw [if_pos hc'] at hc
      rw [if_neg hd'] at hd
      cases hc
      rw [if_pos hc', if_neg hd'] at h
      exact absurd h.symm (key_ne_of_childByKey hl hkey hd)
  · by_cases hd' : d = g.forest.size
    · rw [if_neg hc'] at hc
      rw [if_pos hd'] at hd
      cases hd
      rw [if_neg hc', if_pos hd'] at h
      exact absurd h (key_ne_of_childByKey hl hkey hc)
    · rw [if_neg hc'] at hc
      rw [if_neg hd'] at hd
      rw [if_neg hc', if_neg hd'] at h
      exact hg c d q hc hd h

/-- A node for a member that has none. -/
theorem grown_pushChild (hg : Grown g) {p : Nat} {base path : Path}
    (hp : g.location? p = some base) (hkeys : path.keys = base.keys) {s : Segment}
    (hs : g.childByKey p s.key = none) : Grown (g.pushChild p s.key (.data (path ++ [s]))) := by
  have hlt : p < g.forest.size := lt_of_location? hp
  have hplace := place?_pushChild (g := g) p s.key (.data (path ++ [s]))
  have hparent := parent?_pushChild (g := g) p s.key (.data (path ++ [s]))
  have hold : ∀ c q, g.forest.parent? c = some q → c ≠ g.forest.size :=
    fun c q h => Nat.ne_of_lt (Forest.lt_of_parent? h)
  constructor
  case linked => exact linked_pushChild hg.linked hlt _ _
  case root =>
    rw [hplace, if_neg (Nat.ne_of_lt (lt_of_place? hg.root))]
    exact hg.root
  case top =>
    rw [hparent, if_neg (Nat.ne_of_lt (lt_of_place? hg.root))]
    exact hg.top
  case rootOnly =>
    intro i k h
    rw [hplace] at h
    split at h
    · cases h
    · exact hg.rootOnly i k h
  case older =>
    intro c q h
    rw [hparent] at h
    split at h
    · next hc =>
      cases h
      rw [hc]
      exact hlt
    · exact hg.older c q h
  case child =>
    intro c q h
    rw [hparent] at h
    split at h
    · next hc =>
      cases h
      exact ⟨base, path, s, (location?_eq_of_lt hlt (hplace p)).trans hp,
        by rw [hplace, if_pos hc], hkeys⟩
    · obtain ⟨b, r, t, hb, ht, hr⟩ := hg.child c q h
      refine ⟨b, r, t, (location?_eq_of_lt (lt_of_location? hb) (hplace q)).trans hb, ?_, hr⟩
      rw [hplace, if_neg (hold c q h)]
      exact ht
  case member =>
    intro i k r h
    rw [hplace] at h
    rw [hparent]
    split at h
    · next hi => exact ⟨p, if_pos hi⟩
    · next hi =>
      rw [if_neg hi]
      exact hg.member i k r h
  case distinct => exact siblingsDiffer_pushChild hg.linked hg.distinct hs _
  case computed =>
    intro i hi
    obtain ⟨n, hn⟩ := hg.computed i hi
    refine ⟨n, ?_⟩
    rw [hplace, if_neg (Nat.ne_of_lt (lt_of_place? hn))]
    exact hn

end Graph

end ReactiveView
