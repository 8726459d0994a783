import ReactiveView.Graph.Locate
import ReactiveView.Proofs.Graph.Links
import ReactiveView.Proofs.Value.Write
/-!
# Walks through observable graphs

Following keys from the root leads to the node whose data lies there, and to no other one; the
nodes on the way are the ones above it.

Results:
* `walk_location?`, `location?_of_walk`: a node is reached by the keys of its path, and by no other
  ones; `eq_of_keys_eq`: so the keys tell nodes apart.
* `walk_resolve`: resolving a path walks its keys, unless the path is the name of a computed node.
* `alone_of_mem_computed`: a computed node has nothing above or below it.
* `above_of_walk`: the node that keys lead to lies below the one that they start from.
-/
namespace ReactiveView.Graph

variable {ω : Type} {g : Graph ω}

/-- The node that keys lead to from a node, child by child. -/
def walk (g : Graph ω) (start : Nat) (keys : List String) : Option Nat :=
  keys.foldlM (fun id key => g.childByKey id key) start

theorem walk_cons (start : Nat) (key : String) (keys : List String) :
    g.walk start (key :: keys) = (g.childByKey start key).bind fun c => g.walk c keys := by
  simp only [walk, List.foldlM_cons]
  rfl

theorem walk_append (start : Nat) (ks ls : List String) :
    g.walk start (ks ++ ls) = (g.walk start ks).bind fun c => g.walk c ls := by
  simp only [walk, List.foldlM_append]
  rfl

/-- The links are those of a forest, and the children of a node have different keys. -/
structure Tidy (g : Graph ω) : Prop extends Sound g where
  distinct : SiblingsDiffer g

theorem Grown.tidy (hg : Grown g) : Tidy g := ⟨hg.sound, hg.distinct⟩

theorem Tidy.childByKey_eq_some_iff (hg : Tidy g) {p c : Nat} {key : String} :
    g.childByKey p key = some c
      ↔ g.forest.parent? c = some p ∧ (g.place? c).map (·.1) = some key := by
  have hlinked := hg.forest.linked
  constructor
  · intro h
    exact ⟨(hlinked.iff p c).mp (List.mem_of_find?_eq_some h), hasKey_iff.mp (List.find?_some h)⟩
  · rintro ⟨hc, hkey⟩
    cases h : g.childByKey p key with
    | none => exact absurd hkey (key_ne_of_childByKey hlinked h hc)
    | some d =>
      have hd := (hlinked.iff p d).mp (List.mem_of_find?_eq_some h)
      have hdkey := hasKey_iff.mp (List.find?_some h)
      rw [hg.distinct c d p hc hd (hkey.trans hdkey.symm)]

theorem childByKey_eq_some_iff (hg : Grown g) {p c : Nat} {key : String} :
    g.childByKey p key = some c
      ↔ g.forest.parent? c = some p ∧ (g.place? c).map (·.1) = some key :=
  hg.tidy.childByKey_eq_some_iff

theorem SameShape.hasKey {g' : Graph ω} (h : SameShape g g') : g'.hasKey = g.hasKey := by
  funext key i
  rw [Bool.eq_iff_iff, hasKey_iff, hasKey_iff, h.place]

theorem SameShape.childByKey {g' : Graph ω} (h : SameShape g g') (p : Nat) (key : String) :
    g'.childByKey p key = g.childByKey p key := by
  rw [Graph.childByKey, Graph.childByKey, h.children, h.hasKey]

theorem SameShape.walk {g' : Graph ω} (h : SameShape g g') (start : Nat) (keys : List String) :
    g'.walk start keys = g.walk start keys := by
  simp only [Graph.walk, h.childByKey]

theorem SameShape.resolve {g' : Graph ω} (h : SameShape g g') (path : Path) :
    g'.resolve path = g.resolve path := by
  cases path with
  | nil => rfl
  | cons s rest => simp only [Graph.resolve, h.childByKey, h.computed, h.hasKey]

theorem SameShape.locate {g' : Graph ω} (h : SameShape g g') (source : String) :
    g'.locate source = g.locate source := by
  simp only [Graph.locate, h.resolve]

theorem childByKey_insertComputed (hg : Grown g) {name : String} {p c : Nat} {key : String}
    (h : g.childByKey p key = some c) : (g.insertComputed name).2.childByKey p key = some c := by
  obtain ⟨hc, hkey⟩ := (childByKey_eq_some_iff hg).mp h
  refine (childByKey_eq_some_iff (grown_insertComputed hg name)).mpr ⟨?_, ?_⟩
  · rw [parent?_insertComputed, hc]
  · rw [place?_insertComputed, if_neg (Nat.ne_of_lt (Forest.lt_of_parent? hc)), hkey]

theorem walk_insertComputed (hg : Grown g) {name : String} {start i : Nat} {keys : List String}
    (h : g.walk start keys = some i) : (g.insertComputed name).2.walk start keys = some i := by
  induction keys generalizing start with
  | nil => exact h
  | cons key keys ih =>
    rw [walk_cons] at h ⊢
    obtain ⟨c, hc, hrest⟩ := Option.bind_eq_some_iff.mp h
    rw [childByKey_insertComputed hg hc]
    exact ih hrest

/-- The path of a child has the keys of its parent's path, and its own key last. -/
theorem location?_childByKey (hg : Grown g) {p c : Nat} {key : String}
    (h : g.childByKey p key = some c) : ∃ base path, g.location? p = some base ∧
      g.location? c = some path ∧ path.keys = base.keys ++ [key] := by
  obtain ⟨hc, hkey⟩ := (childByKey_eq_some_iff hg).mp h
  obtain ⟨base, path, s, hbase, hplace, hkeys⟩ := hg.child c p hc
  rw [hplace] at hkey
  cases hkey
  refine ⟨base, path ++ [s], hbase, by rw [location?, hplace]; rfl, ?_⟩
  rw [← hkeys]
  simp [Path.keys]

theorem location?_of_walk (hg : Grown g) {start i : Nat} {base : Path} {keys : List String}
    (hstart : g.location? start = some base) (h : g.walk start keys = some i) :
    ∃ path, g.location? i = some path ∧ path.keys = base.keys ++ keys := by
  induction keys generalizing start base with
  | nil =>
    cases h
    exact ⟨base, hstart, by rw [List.append_nil]⟩
  | cons key keys ih =>
    rw [walk_cons] at h
    obtain ⟨c, hc, hi⟩ := Option.bind_eq_some_iff.mp h
    obtain ⟨base', path, hbase, hplace, hpath⟩ := location?_childByKey hg hc
    rw [hstart] at hbase
    cases hbase
    obtain ⟨rest, hrest, hkeys⟩ := ih hplace hi
    exact ⟨rest, hrest, by rw [hkeys, hpath, List.append_assoc]; rfl⟩

theorem location?_root (hg : Grown g) : g.location? root = some [] := by
  rw [location?, hg.root]
  rfl

/-- A node is reached from the root by the keys of its path. -/
theorem walk_location? (hg : Grown g) {i : Nat} {path : Path} (h : g.location? i = some path) :
    g.walk root path.keys = some i := by
  -- parents are older, so the induction goes up to the root
  induction i using Nat.strongRecOn generalizing path with
  | _ i ih =>
    obtain ⟨⟨key, source⟩, hplace, hsource⟩ := Option.bind_eq_some_iff.mp h
    cases source with
    | root =>
      cases hsource
      rw [hg.rootOnly i key hplace]
      rfl
    | computed name => cases hsource
    | data path' =>
      cases hsource
      obtain ⟨p, hp⟩ := hg.member i key path hplace
      obtain ⟨base, path', s, hbase, hc, hkeys⟩ := hg.child i p hp
      rw [hplace] at hc
      cases hc
      have hwalk := ih p (hg.older i p hp) hbase
      have hchild : g.childByKey p s.key = some i :=
        (childByKey_eq_some_iff hg).mpr ⟨hp, by rw [hplace]; rfl⟩
      have hkeys : Path.keys (path' ++ [s]) = base.keys ++ [s.key] := by
        rw [← hkeys]
        simp [Path.keys]
      rw [hkeys, walk_append, hwalk, Option.bind_some, walk_cons, hchild]
      rfl

/-- Different nodes have different keys on the way from the root. -/
theorem eq_of_keys_eq (hg : Grown g) {i j : Nat} {p q : Path} (hi : g.location? i = some p)
    (hj : g.location? j = some q) (hkeys : p.keys = q.keys) : i = j := by
  have h := walk_location? hg hi
  rw [hkeys, walk_location? hg hj] at h
  exact (Option.some.inj h).symm

/-! ## Resolving a path -/

theorem foldlM_keys (start : Nat) (p : Path) :
    p.foldlM (fun id s => g.childByKey id s.key) start = g.walk start p.keys := by
  simp only [walk, Path.keys, List.foldlM_map]

/-- A computed node has nothing below it. -/
theorem childByKey_of_location?_none (hg : Grown g) {p : Nat} (h : g.location? p = none)
    (key : String) : g.childByKey p key = none := by
  cases hc : g.childByKey p key with
  | none => rfl
  | some c =>
    obtain ⟨base, path, hbase, -⟩ := location?_childByKey hg hc
    rw [h] at hbase
    cases hbase

theorem location?_of_mem_computed (hg : Grown g) {i : Nat} (h : i ∈ g.computed) :
    g.location? i = none := by
  obtain ⟨name, hplace⟩ := hg.computed i h
  rw [location?, hplace]
  rfl

/-- A computed node stands alone. -/
theorem alone_of_mem_computed (hg : Grown g) {i : Nat} (hi : i ∈ g.computed) :
    g.forest.parent? i = none ∧ g.forest.children i = [] ∧
      ∃ name, g.place? i = some (name, .computed name) := by
  obtain ⟨name, hplace⟩ := hg.computed i hi
  refine ⟨?_, ?_, name, hplace⟩
  · cases hp : g.forest.parent? i with
    | none => rfl
    | some p =>
      obtain ⟨base, path, s, -, hdata, -⟩ := hg.child i p hp
      rw [hplace] at hdata
      cases hdata
  · refine List.eq_nil_iff_forall_not_mem.mpr fun c hc => ?_
    obtain ⟨base, path, s, hbase, -, -⟩ := hg.child c i ((hg.linked.iff i c).mp hc)
    rw [location?_of_mem_computed hg hi] at hbase
    cases hbase

/-- Resolving a path walks its keys from the root, or finds the computed node that it names where
the root has no child of that name. -/
theorem resolve_eq_some (hg : Grown g) {path : Path} {i : Nat} (h : g.resolve path = some i) :
    g.walk root path.keys = some i ∨
      ∃ s, path = [s] ∧ i ∈ g.computed ∧ g.place? i = some (s.key, .computed s.key) ∧
        g.childByKey root s.key = none := by
  cases path with
  | nil => exact .inl h
  | cons s rest =>
    obtain ⟨start, hstart, hrest⟩ := Option.bind_eq_some_iff.mp h
    rw [foldlM_keys] at hrest
    cases hc : g.childByKey root s.key with
    | some c =>
      rw [hc] at hstart
      cases hstart
      refine .inl ?_
      show g.walk root (s.key :: Path.keys rest) = some i
      rw [walk_cons, hc]
      exact hrest
    | none =>
      rw [hc, Option.none_or] at hstart
      have hmem := List.mem_of_find?_eq_some hstart
      obtain ⟨name, hplace⟩ := hg.computed start hmem
      have hkey := hasKey_iff.mp (List.find?_some hstart)
      rw [hplace] at hkey
      cases hkey
      cases rest with
      | nil =>
        cases hrest
        exact .inr ⟨s, rfl, hmem, hplace, hc⟩
      | cons t rest =>
        rw [show Path.keys (t :: rest) = t.key :: Path.keys rest from rfl, walk_cons,
          childByKey_of_location?_none hg (location?_of_mem_computed hg hmem)] at hrest
        cases hrest

/-- A path that resolves to a node of the data leads to the place of that node. -/
theorem walk_resolve (hg : Grown g) {path : Path} {i : Nat} (h : g.resolve path = some i)
    (hi : i ∉ g.computed) :
    g.walk root path.keys = some i ∧ ∃ p, g.location? i = some p ∧ p.keys = path.keys := by
  rcases resolve_eq_some hg h with hwalk | ⟨s, -, hmem, -⟩
  · obtain ⟨rest, hrest, hkeys⟩ := location?_of_walk hg (location?_root hg) hwalk
    exact ⟨hwalk, rest, hrest, hkeys⟩
  · exact absurd hmem hi

theorem contains_of_location? {i : Nat} {path : Path} (h : g.location? i = some path) :
    g.contains i := by
  obtain ⟨x, hx, -⟩ := Option.bind_eq_some_iff.mp h
  rw [contains_eq, hx]
  rfl

/-- What a path resolves to is there. -/
theorem contains_of_resolve (hg : g.Grown) {path : Path} {i : Nat} (h : g.resolve path = some i) :
    g.contains i := by
  rcases resolve_eq_some hg h with hwalk | ⟨s, -, -, hplace, -⟩
  · obtain ⟨rest, hrest, -⟩ := location?_of_walk hg (location?_root hg) hwalk
    exact contains_of_location? hrest
  · rw [contains_eq, hplace]
    rfl

/-- A text that names a node is read as a path, which resolves alike in every graph. -/
theorem exists_path_of_locate {source : String} {i : Nat} (h : g.locate source = some i) :
    ∃ path, g.resolve path = some i ∧ ∀ g' : Graph ω, g'.locate source = g'.resolve path := by
  unfold locate at h ⊢
  dsimp only at h ⊢
  split at h
  · next hroot => exact ⟨[], h, fun g' => if_pos hroot⟩
  · next hroot =>
    simp only [if_neg hroot]
    split at h
    · cases h
    · next e he =>
      split at h
      · cases h
      · next hcall => exact ⟨e.path, h, fun g' => if_neg hcall⟩

/-- What an expression text names is there. -/
theorem contains_of_locate (hg : g.Grown) {source : String} {i : Nat}
    (h : g.locate source = some i) : g.contains i := by
  obtain ⟨path, hpath, -⟩ := exists_path_of_locate h
  exact contains_of_resolve hg hpath

/-- A path resolves to the node that its keys lead to. -/
theorem resolve_of_walk {path : Path} {i : Nat} (h : g.walk root path.keys = some i) :
    g.resolve path = some i := by
  cases path with
  | nil => exact h
  | cons s rest =>
    rw [show Path.keys (s :: rest) = s.key :: Path.keys rest from rfl, walk_cons] at h
    obtain ⟨c, hc, hrest⟩ := Option.bind_eq_some_iff.mp h
    simp only [resolve, hc, foldlM_keys]
    exact hrest

/-- A path of two segments or more leads to no computed node, as there is nothing below these. -/
theorem resolve_cons_cons (hg : g.Grown) (s t : Segment) (rest : Path) :
    g.resolve (s :: t :: rest) = g.walk root (Path.keys (s :: t :: rest)) := by
  refine Option.ext fun i => ⟨fun h => ?_, resolve_of_walk⟩
  rcases resolve_eq_some hg h with hwalk | ⟨u, hu, -⟩
  · exact hwalk
  · cases hu

/-! ## Above and below -/

/-- Keys lead down: from a node to itself or to a node below it. -/
theorem above_of_walk (hg : Tidy g) {start i : Nat} {keys : List String}
    (h : g.walk start keys = some i) : start = i ∨ g.forest.Above start i := by
  induction keys generalizing start with
  | nil =>
    cases h
    exact .inl rfl
  | cons key keys ih =>
    rw [walk_cons] at h
    obtain ⟨c, hc, hi⟩ := Option.bind_eq_some_iff.mp h
    have hparent := (hg.childByKey_eq_some_iff.mp hc).1
    rcases ih hi with rfl | hci
    · exact .inr (.parent hparent)
    · exact .inr (Forest.Above.trans (.parent hparent) hci)

end ReactiveView.Graph
