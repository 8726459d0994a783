import ReactiveView.Proofs.Graph.Growing
import ReactiveView.Proofs.Value.Members
/-!
# The graph of a data tree

A new graph that grows by a value gets a node for each path to a member of the value, in the order
of the paths: `Plants` says which nodes are added, and in which order. Since no record has a key
twice, no member finds a node that was made for another one.

Results:
* `plants_growMembers`: growing adds the nodes of the members in the order of their paths.
* `mirrors_ofData`: the graph of a data tree has the members of the data for its nodes, and nothing
  else; numbers, parents and children follow the data.
-/
namespace ReactiveView.Graph

variable {ω : Type} {g g' g'' : Graph ω} {paths paths' : List Path}

/-- A graph with a node more for each path, in order, below the node that has the path without its
last step. -/
inductive Plants (g : Graph ω) : List Path → Graph ω → Prop
  | nil : Plants g [] g
  | push {paths : List Path} {g' : Graph ω} {p : Nat} {path : Path} {s : Segment}
      (h : Plants g paths g') (hp : g'.location? p = some path)
      (hs : g'.childByKey p s.key = none) :
      Plants g (paths ++ [path ++ [s]]) (g'.pushChild p s.key (.data (path ++ [s])))

theorem Plants.trans (h : Plants g paths g') (h' : Plants g' paths' g'') :
    Plants g (paths ++ paths') g'' := by
  induction h' with
  | nil => rwa [List.append_nil]
  | push _ hp hs ih =>
    rw [← List.append_assoc]
    exact .push ih hp hs

theorem Plants.grows (h : Plants g paths g') : Grows (· ∈ paths) g g' := by
  induction h with
  | nil => exact .refl
  | push _ hp hs ih =>
    refine .push (ih.imp fun path hpath => ?_) hp rfl hs (by simp)
    exact List.mem_append_left _ hpath

/-! ## Growing plants the members in order -/

/-- Where nothing is planted at a key, no child appears there. -/
theorem Plants.childByKey_eq_none (h : Plants g paths g') (hg : Grown g) {p : Nat} {base : Path}
    {key : String} (hp : g.location? p = some base) (hkey : g.childByKey p key = none)
    (hpaths : ∀ path ∈ paths, path.keys ≠ base.keys ++ [key]) : g'.childByKey p key = none := by
  cases hc : g'.childByKey p key with
  | none => rfl
  | some c =>
    obtain ⟨base', path, hbase, hpath, hkeys⟩ := location?_childByKey (h.grows.grown hg) hc
    rw [h.grows.location? hp] at hbase
    cases hbase
    rcases h.grows.location_or hpath with hold | hnew
    · have hwalk := walk_location? hg hold
      rw [hkeys, walk_append, walk_location? hg hp, Option.bind_some, walk_cons, hkey] at hwalk
      cases hwalk
    · exact absurd hkeys (hpaths path hnew)

/-- A new node has no children. -/
theorem childByKey_pushChild_self (hl : g.forest.Linked) {p : Nat} (hp : p < g.forest.size)
    (key key' : String) (source : Source) :
    (g.pushChild p key source).childByKey g.forest.size key' = none := by
  have hnone : g.forest.children g.forest.size = [] :=
    List.eq_nil_iff_forall_not_mem.mpr fun c hc =>
      Nat.lt_irrefl _ (Forest.lt_of_mem_children hc)
  rw [childByKey, children_pushChild hl hp, if_neg (Nat.ne_of_lt hp), hnone]
  rfl

/-- Growing by a value, below a node that has none of its members yet, adds the nodes of the
members in the order of their paths. -/
def PlantsMembers (ω : Type) (v : Value) : Prop :=
  ∀ (g : Graph ω) (p : Nat) (base : Path), Grown g → g.location? p = some base →
    (∀ m ∈ v.members, g.childByKey p m.1.key = none) →
    Plants g (v.memberPaths.map (base ++ ·)) (growMembers p base g v.outline)

/-- One member: its own node first, and then the nodes below it. -/
theorem plants_growMember (hg : Grown g) {p : Nat} {base : Path} (hp : g.location? p = some base)
    {s : Segment} (hs : g.childByKey p s.key = none) {v : Value} (hv : PlantsMembers ω v) :
    Plants g (([s] :: v.memberPaths.map (s :: ·)).map (base ++ ·))
      (growMember p base g (.member s v.outline)) := by
  have hnew : (g.pushChild p s.key (.data (base ++ [s]))).location? g.forest.size
      = some (base ++ [s]) := by
    rw [location?, place?_pushChild, if_pos rfl]
    rfl
  have hfirst : Plants g [base ++ [s]] (g.pushChild p s.key (.data (base ++ [s]))) :=
    .push .nil hp hs
  have hbelow := hv _ _ _ (grown_pushChild hg hp rfl hs) hnew fun m _ =>
    childByKey_pushChild_self hg.linked (lt_of_location? hp) _ _ _
  have hpaths : ([s] :: v.memberPaths.map (s :: ·)).map (base ++ ·)
      = [base ++ [s]] ++ v.memberPaths.map (base ++ [s] ++ ·) := by
    simp [Function.comp_def]
  rw [growMember, hs, hpaths]
  exact hfirst.trans hbelow

/-- Members in a row, each with a key of its own. -/
theorem plants_row {ms : List (Segment × Value)} (hkeys : (ms.map fun m => m.1.key).Nodup)
    (hms : ∀ m ∈ ms, PlantsMembers ω m.2) (hg : Grown g) {p : Nat} {base : Path}
    (hp : g.location? p = some base) (hfree : ∀ m ∈ ms, g.childByKey p m.1.key = none) :
    Plants g ((ms.flatMap fun m => [m.1] :: m.2.memberPaths.map (m.1 :: ·)).map (base ++ ·))
      (growMembers p base g (ms.map fun m => .member m.1 m.2.outline)) := by
  induction ms generalizing g with
  | nil => exact .nil
  | cons m ms ih =>
    obtain ⟨hkey, hkeys⟩ := List.nodup_cons.mp hkeys
    have hfirst := plants_growMember hg hp (hfree m List.mem_cons_self) (hms m List.mem_cons_self)
    have hothers : ∀ n ∈ ms,
        (growMember p base g (.member m.1 m.2.outline)).childByKey p n.1.key = none := by
      intro n hn
      refine hfirst.childByKey_eq_none hg hp (hfree n (List.mem_cons_of_mem _ hn)) ?_
      intro path hpath hkeys
      obtain ⟨front, hfront, rfl⟩ := List.mem_map.mp hpath
      obtain ⟨rest, rfl⟩ := Value.exists_eq_cons hfront
      have hsame : m.1.key = n.1.key := by
        simp only [Path.keys, List.map_append, List.map_cons] at hkeys
        exact (List.cons.inj (List.append_cancel_left hkeys)).1
      exact hkey (List.mem_map.mpr ⟨n, hn, hsame.symm⟩)
    rw [List.flatMap_cons, List.map_append, List.map_cons]
    show Plants g _ (growMembers p base (growMember p base g (.member m.1 m.2.outline)) _)
    exact hfirst.trans (ih hkeys (fun n hn => hms n (List.mem_cons_of_mem _ hn))
      (hfirst.grows.grown hg) (hfirst.grows.location? hp) hothers)

/-- Growing adds the nodes of the members in the order of their paths. -/
theorem plants_growMembers {v : Value} (hv : v.isDistinct) : PlantsMembers ω v := by
  induction v using Value.members_induction with
  | step v ih =>
    intro g p base hg hp hfree
    rw [Value.memberPaths_eq, Value.outline_eq]
    exact plants_row (Value.nodup_keys_members hv)
      (fun m hm => ih m hm (Value.isDistinct_of_mem_members hv hm)) hg hp hfree

/-! ## What has been planted -/

theorem Plants.size (h : Plants g paths g') : g'.forest.size = g.forest.size + paths.length := by
  induction h with
  | nil => rfl
  | push _ _ _ ih =>
    rw [size_pushChild, ih, List.length_append, List.length_singleton, Nat.add_assoc]

/-- The planted nodes are numbered in the order of their paths. -/
theorem Plants.property? (h : Plants g paths g') {k : Nat} {path : Path} {s : Segment}
    (hk : paths[k]? = some (path ++ [s])) :
    g'.property? (g.forest.size + k) = some ⟨s.key, .data (path ++ [s]), [], none⟩ := by
  induction h with
  | nil => cases hk
  | @push paths g' p path' s' h _ _ ih =>
    rw [property?_pushChild, h.size]
    rw [List.getElem?_append] at hk
    split at hk
    · next hlt =>
      rw [if_neg (by omega)]
      exact ih hk
    · next hge =>
      obtain ⟨hlt, hlast⟩ := List.getElem?_eq_some_iff.mp hk
      rw [List.length_singleton] at hlt
      rw [List.getElem_singleton] at hlast
      obtain ⟨rfl, hs⟩ := List.append_inj' hlast rfl
      cases hs
      rw [if_pos (by omega)]

/-- The nodes that were there are as they were. -/
theorem Plants.property?_of_lt (h : Plants g paths g') {i : Nat} (hi : i < g.forest.size) :
    g'.property? i = g.property? i := by
  induction h with
  | nil => rfl
  | push h _ _ ih =>
    rw [property?_pushChild, if_neg (by have := h.size; omega), ih]

/-- A planted node lies below the node that has its path without the last step. -/
theorem Plants.parent? (h : Plants g paths g') {k : Nat} {path : Path} {s : Segment}
    (hk : paths[k]? = some (path ++ [s])) : ∃ p,
      g'.forest.parent? (g.forest.size + k) = some p ∧ g'.location? p = some path := by
  induction h with
  | nil => cases hk
  | @push paths g' p path' s' h hp hs ih =>
    have hstep : Plants g' [path' ++ [s']] _ := .push .nil hp hs
    rw [parent?_pushChild, h.size]
    rw [List.getElem?_append] at hk
    split at hk
    · next hlt =>
      obtain ⟨q, hq, hpath⟩ := ih hk
      rw [if_neg (by omega)]
      exact ⟨q, hq, hstep.grows.location? hpath⟩
    · next hge =>
      obtain ⟨hlt, hlast⟩ := List.getElem?_eq_some_iff.mp hk
      rw [List.length_singleton] at hlt
      rw [List.getElem_singleton] at hlast
      obtain ⟨rfl, -⟩ := List.append_inj' hlast rfl
      rw [if_pos (by omega)]
      exact ⟨p, rfl, hstep.grows.location? hp⟩

/-- The children of every node are in the order of their numbers. -/
def Ordered (g : Graph ω) : Prop :=
  ∀ i, g.forest.children i = (List.range g.forest.size).filter fun c => g.forest.parent? c = some i

theorem ordered_bare : Ordered (bare : Graph ω) := by
  intro i
  have hnone : (bare : Graph ω).forest.children i = [] :=
    List.eq_nil_iff_forall_not_mem.mpr fun c hc => by
      have hparent := (grown_bare.linked.iff i c).mp hc
      rw [parent?_bare] at hparent
      cases hparent
  rw [hnone]
  exact (List.filter_eq_nil_iff.mpr fun c _ => by rw [parent?_bare]; simp).symm

theorem Plants.ordered (h : Plants g paths g') (hg : Grown g) (ho : Ordered g) : Ordered g' := by
  induction h with
  | nil => exact ho
  | @push paths g' p path s h hp hs ih =>
    intro i
    have hold : (List.range g'.forest.size).filter
          (fun c => (g'.pushChild p s.key (.data (path ++ [s]))).forest.parent? c = some i)
        = g'.forest.children i := by
      rw [ih i]
      refine List.filter_congr fun c hc => ?_
      rw [parent?_pushChild, if_neg (Nat.ne_of_lt (List.mem_range.mp hc))]
    rw [children_pushChild (h.grows.grown hg).linked (lt_of_location? hp), size_pushChild,
      List.range_succ, List.filter_append, hold, List.filter_singleton, parent?_pushChild,
      if_pos rfl]
    by_cases hi : p = i
    · simp [hi]
    · simp [hi]

/-! ## The graph of a data tree -/

theorem resolve_eq_walk (h : g.computed = []) (path : Path) :
    g.resolve path = g.walk root path.keys := by
  cases path with
  | nil => rfl
  | cons s rest =>
    show ((g.childByKey root s.key).or (g.computed.find? (g.hasKey s.key))).bind _ = _
    rw [h, List.find?_nil, Option.or_none]
    simp only [foldlM_keys]
    exact (walk_cons root s.key _).symm

/-- A node is found by its path. -/
theorem resolve_location? (hg : Grown g) (h : g.computed = []) {i : Nat} {path : Path}
    (hi : g.location? i = some path) : g.resolve path = some i := by
  rw [resolve_eq_walk h, walk_location? hg hi]

theorem plants_ofData {v : Value} (hv : v.isDistinct) :
    Plants (bare : Graph ω) v.memberPaths (ofData v) := by
  have hfree : ∀ m ∈ v.members, (bare : Graph ω).childByKey root m.1.key = none := fun _ _ => rfl
  have h : Plants bare (v.memberPaths.map ([] ++ ·)) (ofData v : Graph ω) :=
    plants_growMembers hv bare root [] grown_bare (location?_root grown_bare) hfree
  simpa using h

/-- A graph that has a node for every member of a value at every level, and nothing else. -/
structure Mirrors (g : Graph ω) (v : Value) : Prop where
  /-- There are the root and one node more for each path. -/
  ids : g.ids = List.range (v.memberPaths.length + 1)
  size : g.size = v.memberPaths.length + 1
  computed : g.computed = []
  root : g.property? root = some ⟨rootKey, .root, [], none⟩
  top : g.parent Graph.root = .ok none
  /-- The nodes are numbered in the order of the paths, each below the node of its path without the
  last step. -/
  node : ∀ k path, v.memberPaths[k]? = some path → ∃ before s p, path = before ++ [s] ∧
    g.resolve path = some (k + 1) ∧
    g.property? (k + 1) = some ⟨Segment.key s, .data path, [], none⟩ ∧
    g.resolve before = some p ∧ g.parent (k + 1) = .ok (some p)
  /-- The children of a node are the nodes of the members of its value, in order. -/
  children : ∀ path ∈ [] :: v.memberPaths, ∃ w id cs, v.at? path = some w ∧
    g.resolve path = some id ∧ g.children id = .ok cs ∧
    cs.map some = w.members.map fun m => g.resolve (path ++ [m.1])

section

variable {v : Value}

theorem size_ofData (hv : v.isDistinct) :
    (ofData v : Graph ω).forest.size = v.memberPaths.length + 1 := by
  rw [(plants_ofData hv).size, Nat.add_comm]
  rfl

theorem property?_ofData (hv : v.isDistinct) {k : Nat} {path : Path} {s : Segment}
    (hk : v.memberPaths[k]? = some (path ++ [s])) :
    (ofData v : Graph ω).property? (k + 1) = some ⟨s.key, .data (path ++ [s]), [], none⟩ := by
  have h := (plants_ofData (ω := ω) hv).property? hk
  rwa [Nat.add_comm] at h

theorem location?_ofData (hv : v.isDistinct) {k : Nat} {path : Path}
    (hk : v.memberPaths[k]? = some path) :
    (ofData v : Graph ω).location? (k + 1) = some path := by
  have hne := Value.ne_nil_of_mem_memberPaths (List.mem_of_getElem? hk)
  obtain ⟨before, s, rfl⟩ := (List.eq_nil_or_concat' path).resolve_left hne
  rw [location?, place?, property?_ofData hv hk]
  rfl

/-- The places of all nodes, in the order of their numbers. -/
theorem map_location?_ofData (hv : v.isDistinct) :
    (List.range (v.memberPaths.length + 1)).map (ofData v : Graph ω).location?
      = ([] :: v.memberPaths).map some := by
  refine List.ext_getElem (by simp) fun i hi hi' => ?_
  cases i with
  | zero =>
    have hroot : (ofData v : Graph ω).location? 0 = some [] := location?_root (grown_ofData v)
    simpa using hroot
  | succ k =>
    have hk : k < v.memberPaths.length := by simpa using hi'
    simpa using location?_ofData hv (List.getElem?_eq_getElem hk)

theorem parent?_ofData (hv : v.isDistinct) {k : Nat} {path : Path} {s : Segment}
    (hk : v.memberPaths[k]? = some (path ++ [s])) : ∃ p,
      (ofData v : Graph ω).forest.parent? (k + 1) = some p ∧
      (ofData v : Graph ω).location? p = some path := by
  have h := (plants_ofData (ω := ω) hv).parent? hk
  rwa [Nat.add_comm] at h

/-- The nodes below a node are those whose path goes one step on from its path. -/
theorem parent?_ofData_iff (hv : v.isDistinct) {c id : Nat} {path : Path}
    (hc : c < (ofData v : Graph ω).forest.size)
    (hid : (ofData v : Graph ω).location? id = some path) :
    (ofData v : Graph ω).forest.parent? c = some id ↔
      ((ofData v : Graph ω).location? c).any fun q => !q.isEmpty && q.dropLast = path := by
  have hgrown : Grown (ofData v : Graph ω) := grown_ofData v
  cases c with
  | zero =>
    rw [show (ofData v : Graph ω).location? 0 = some [] from location?_root hgrown]
    simp [show (ofData v : Graph ω).forest.parent? 0 = none from hgrown.top]
  | succ k =>
    rw [size_ofData hv] at hc
    have hk := List.getElem?_eq_getElem (Nat.lt_of_succ_lt_succ hc)
    rw [location?_ofData hv hk]
    have hne := Value.ne_nil_of_mem_memberPaths (List.mem_of_getElem? hk)
    obtain ⟨before, s, hlast⟩ := (List.eq_nil_or_concat' _).resolve_left hne
    rw [hlast] at hk ⊢
    obtain ⟨p, hp, hbefore⟩ := parent?_ofData (ω := ω) hv hk
    rw [hp]
    constructor
    · rintro h
      cases h
      rw [hid] at hbefore
      cases hbefore
      simp
    · intro h
      have hpath : before = path := by simpa using h
      rw [eq_of_keys_eq hgrown hbefore hid (by rw [hpath])]

/-- The places of the children of a node are those of the members of its value. -/
theorem children_ofData (hv : v.isDistinct) {id : Nat} {path : Path} {w : Value}
    (hpath : path ∈ [] :: v.memberPaths) (hw : v.at? path = some w)
    (hid : (ofData v : Graph ω).location? id = some path) :
    ((ofData v : Graph ω).forest.children id).map (ofData v : Graph ω).location?
      = w.members.map fun m => some (path ++ [m.1]) := by
  have hordered := (plants_ofData (ω := ω) hv).ordered grown_bare ordered_bare id
  have hfilter : (List.range (ofData v : Graph ω).forest.size).filter
        (fun c => (ofData v : Graph ω).forest.parent? c = some id)
      = (List.range (v.memberPaths.length + 1)).filter
        ((fun o => Option.any (fun q => !q.isEmpty && q.dropLast = path) o)
          ∘ (ofData v : Graph ω).location?) := by
    rw [← size_ofData (ω := ω) hv]
    refine List.filter_congr fun c hc => ?_
    rw [Function.comp_apply, Bool.eq_iff_iff, decide_eq_true_iff]
    exact parent?_ofData_iff hv (List.mem_range.mp hc) hid
  have hsteps : v.memberPaths.filter (fun q => !q.isEmpty && q.dropLast = path)
      = v.memberPaths.filter (·.dropLast = path) := by
    refine List.filter_congr fun q hq => ?_
    simp [Value.ne_nil_of_mem_memberPaths hq]
  rw [hordered, hfilter, ← List.filter_map, map_location?_ofData hv, List.filter_map]
  rw [List.filter_cons_of_neg (by simp)]
  simp only [Function.comp_def, Option.any_some]
  rw [hsteps, Value.filter_memberPaths hv hpath hw, List.map_map]
  rfl

end

/-- A node that is there can be grown by any value. -/
theorem grow_of_contains {p : Nat} (hp : g.contains p) (v : Value) (base : Path) :
    g.grow v p base = .ok (growMembers p base g v.outline) := by
  unfold grow
  split
  · next hempty =>
    rw [List.isEmpty_iff.mp hempty, growMembers]
  · rfl

theorem grow_bare (v : Value) : (bare : Graph ω).grow v root [] = .ok (ofData v) :=
  grow_of_contains rfl v []

/-- The graph of a data tree has the members of the data for its nodes: one for each, numbered in
the order of their paths, and linked as the data is nested. -/
theorem mirrors_ofData (v : Value) (hv : v.isDistinct) :
    (bare : Graph ω).grow v root [] = .ok (ofData v) ∧ Mirrors (ofData v : Graph ω) v := by
  have hgrown : Grown (ofData v : Graph ω) := grown_ofData v
  have hresolve : ∀ {i path}, (ofData v : Graph ω).location? i = some path →
      (ofData v : Graph ω).resolve path = some i :=
    fun h => resolve_location? hgrown (computed_ofData v) h
  have hroot : (ofData v : Graph ω).property? root = some ⟨rootKey, .root, [], none⟩ :=
    (plants_ofData hv).property?_of_lt Nat.zero_lt_one
  have hsize := size_ofData (ω := ω) hv
  have hcontains : ∀ i < v.memberPaths.length + 1, (ofData v : Graph ω).contains i := by
    intro i hi
    cases i with
    | zero => rw [contains, show (ofData v : Graph ω).property? 0 = _ from hroot]; rfl
    | succ k =>
      have hk := List.getElem?_eq_getElem (Nat.lt_of_succ_lt_succ hi)
      exact contains_of_location? (location?_ofData hv hk)
  have hids : (ofData v : Graph ω).ids = List.range (v.memberPaths.length + 1) := by
    rw [ids, hsize]
    exact List.filter_eq_self.mpr fun i hi => hcontains i (List.mem_range.mp hi)
  refine ⟨grow_bare v, hids, by rw [size, hids, List.length_range], computed_ofData v, hroot,
    ?_, ?_, ?_⟩
  case refine_1 =>
    rw [parent, property, hroot, hgrown.top]
    rfl
  case refine_2 =>
    intro k path hk
    have hne := Value.ne_nil_of_mem_memberPaths (List.mem_of_getElem? hk)
    obtain ⟨before, s, rfl⟩ := (List.eq_nil_or_concat' path).resolve_left hne
    obtain ⟨p, hp, hbefore⟩ := parent?_ofData (ω := ω) hv hk
    have hproperty := property?_ofData (ω := ω) hv hk
    refine ⟨before, s, p, rfl, hresolve (location?_ofData hv hk), hproperty, hresolve hbefore, ?_⟩
    rw [parent, property, hproperty, hp]
    rfl
  case refine_3 =>
    intro path hpath
    obtain ⟨w, hw⟩ := Value.at?_of_mem_memberPaths hv hpath
    have hid : ∃ id, (ofData v : Graph ω).location? id = some path := by
      rcases List.mem_cons.mp hpath with rfl | hpath
      · exact ⟨root, location?_root hgrown⟩
      · obtain ⟨k, hk⟩ := List.getElem?_of_mem hpath
        exact ⟨k + 1, location?_ofData hv hk⟩
    obtain ⟨id, hid⟩ := hid
    refine ⟨w, id, (ofData v : Graph ω).forest.children id, hw, hresolve hid, ?_, ?_⟩
    · obtain ⟨p, hp⟩ := Option.isSome_iff_exists.mp (contains_of_location? hid)
      rw [children, property_eq_ok.mpr hp]
      rfl
    · have hplaces := congrArg (List.map (·.bind (ofData v : Graph ω).resolve))
        (children_ofData hv hpath hw hid)
      rw [List.map_map, List.map_map] at hplaces
      refine Eq.trans (List.map_congr_left fun c hc => ?_) hplaces
      obtain ⟨_, q, s, -, hplace, -⟩ := hgrown.child c id ((hgrown.linked.iff id c).mp hc)
      have hc : (ofData v : Graph ω).location? c = some (q ++ [s]) := by
        rw [location?, hplace]
        rfl
      rw [Function.comp_apply, hc, Option.bind_some, hresolve hc]

/-- A list in a record, and one key at two levels. -/
def nested : Value := .record [("a", .list [.null, .record [("a", .null)]]), ("b", .null)]

theorem mirrors_ofData_nested : nested.isDistinct ∧
    (bare : Graph Unit).grow nested root [] = .ok (ofData nested) ∧
    Mirrors (ofData nested : Graph Unit) nested :=
  ⟨by decide, mirrors_ofData nested (by decide)⟩

end ReactiveView.Graph
