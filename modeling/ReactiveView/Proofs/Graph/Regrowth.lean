import Mathlib.Data.List.Find
import Mathlib.Data.List.Induction
import ReactiveView.Proofs.Graph.Mirror
/-!
# Growing again

Growing looks for every member by its key before it makes a node for it. So a value may be passed
to a graph at any node, also one whose children follow another value or none at all: what is found
is kept, and a node is made only where the keys of a member lead to none. `Fills` says so: a graph
that has nodes more, each of them where the way that leads to it used to end.

The graphs in question are those that a builder makes: of values grown at any node with any path,
and of computed nodes. Their links are those of a forest and siblings have different keys, which is
why a row of keys leads to one node and why no two rows lead to the same one.

Results:
* `tidy_of_seeded`: the children of a node have different keys, whatever a builder is told.
* `fills_growMembers`: growing makes the nodes that are missing, in the order of the member paths.
* `regrown_of_grow`: what growing leaves as it was, what it adds, and that it adds nothing twice.
-/
namespace ReactiveView.Graph

variable {ω : Type} {g g' g'' : Graph ω} {p q : Nat} {ways ways' : List (List String)}

/-! ## Graphs that a builder makes -/

/-- The graphs that growing and computed nodes lead to, with numbers drawn for other graphs, and
with observers and recorded values. -/
inductive Seeded : Graph ω → Prop
  | bare : Seeded bare
  | grow {g : Graph ω} (h : Seeded g) (v : Value) (p : Nat) (base : Path) :
      Seeded (g.settle (g.grow v p base)).2
  | insertComputed {g : Graph ω} (h : Seeded g) (name : String) : Seeded (g.insertComputed name).2
  | draw {g : Graph ω} (h : Seeded g) : Seeded g.draw.2
  | observe {g : Graph ω} (h : Seeded g) (id : Nat) (o : ω) :
      Seeded (g.settle (g.observe id o)).2
  | setPrevious {g : Graph ω} (h : Seeded g) (id : Nat) (v : Value) :
      Seeded (g.settle (g.setPrevious id v)).2

/-- Where no link changes and no node with a parent, graphs stay tidy. -/
theorem Tidy.of_links (hg : Tidy g) (hsound : Sound g')
    (hparent : ∀ i, g'.forest.parent? i = g.forest.parent? i)
    (hplace : ∀ i, i < g.forest.size → g'.place? i = g.place? i) : Tidy g' where
  toSound := hsound
  distinct c d p hc hd h := by
    rw [hparent] at hc hd
    rw [hplace c (Forest.lt_of_parent? hc), hplace d (Forest.lt_of_parent? hd)] at h
    exact hg.distinct c d p hc hd h

theorem SameShape.tidy (h : SameShape g g') (hg : Tidy g) : Tidy g' :=
  hg.of_links (h.sound hg.toSound) h.parent fun i _ => h.place i

theorem tidy_pushChild (hg : Tidy g) (hp : g.contains p) {key : String}
    (hkey : g.childByKey p key = none) (source : Source) : Tidy (g.pushChild p key source) where
  toSound := sound_pushChild hg.toSound hp key source
  distinct := siblingsDiffer_pushChild hg.forest.linked hg.distinct hkey source

/-- Whatever a builder is told, siblings have different keys. -/
theorem tidy_of_seeded (h : Seeded g) : Tidy g := by
  induction h with
  | bare => exact grown_bare.tidy
  | grow _ v p base ih =>
    refine settle_keeps ih fun _ => grow_keeps (fun _ _ _ source hg hp hkey => ?_) ih
    exact tidy_pushChild hg hp hkey source
  | @insertComputed g _ name ih =>
    refine ih.of_links (sound_apply ih.toSound (.insertComputed name)) (parent?_insertComputed name)
      fun i hi => ?_
    rw [place?_insertComputed, if_neg (Nat.ne_of_lt hi)]
  | draw _ ih =>
    refine ih.of_links (sound_draw ih.toSound) (Forest.parent?_push none) fun i _ => ?_
    rw [place?, property?_draw]
    rfl
  | observe _ id o ih => exact settle_keeps ih fun _ h => (sameShape_observe h).tidy ih
  | setPrevious _ id v ih => exact settle_keeps ih fun _ h => (sameShape_setPrevious h).tidy ih

/-! ## Ways through a tidy graph -/

/-- Keys lead from a node to another one: by a child with the first key, and on from there. -/
inductive Leads (g : Graph ω) : Nat → List String → Nat → Prop
  | here (i : Nat) : Leads g i [] i
  | down {i c j : Nat} {key : String} {keys : List String} (hc : c ∈ g.forest.children i)
      (hkey : g.hasKey key c) (h : Leads g c keys j) : Leads g i (key :: keys) j

/-- Looking for one child after the other finds the node that the keys lead to, and there is no
other one. -/
theorem leads_iff (hg : Tidy g) {keys : List String} {x : Nat} :
    g.Leads p keys x ↔ g.walk p keys = some x := by
  constructor
  · intro h
    induction h with
    | here i => rfl
    | down hc hkey _ ih =>
      have hchild := hg.childByKey_eq_some_iff.mpr
        ⟨(hg.forest.linked.iff _ _).mp hc, hasKey_iff.mp hkey⟩
      rw [walk_cons, hchild]
      exact ih
  · intro h
    induction keys generalizing p with
    | nil =>
      cases h
      exact .here _
    | cons key keys ih =>
      rw [walk_cons] at h
      obtain ⟨c, hc, hx⟩ := Option.bind_eq_some_iff.mp h
      exact .down (List.mem_of_find?_eq_some hc) (List.find?_some hc) (ih hx)

theorem contains_of_walk (hp : g.contains p) {keys : List String} {x : Nat}
    (h : g.walk p keys = some x) : g.contains x := by
  induction keys generalizing p with
  | nil =>
    cases h
    exact hp
  | cons key keys ih =>
    rw [walk_cons] at h
    obtain ⟨c, hc, hx⟩ := Option.bind_eq_some_iff.mp h
    exact ih (contains_of_childByKey hc) hx

/-- The last key of a way is that of the node at its end, and the way before it leads to the
parent. -/
theorem walk_append_singleton (hg : Tidy g) {keys : List String} {key : String} {x : Nat}
    (h : g.walk p (keys ++ [key]) = some x) : ∃ c, g.walk p keys = some c ∧
      g.forest.parent? x = some c ∧ (g.place? x).map (·.1) = some key := by
  rw [walk_append] at h
  obtain ⟨c, hc, hx⟩ := Option.bind_eq_some_iff.mp h
  rw [walk_cons] at hx
  obtain ⟨y, hy, hxy⟩ := Option.bind_eq_some_iff.mp hx
  cases hxy
  exact ⟨c, hc, hg.childByKey_eq_some_iff.mp hy⟩

/-- No node is at the end of two ways from one node. -/
theorem walk_injective (hg : Tidy g) {ks ls : List String} {x : Nat} (hk : g.walk p ks = some x)
    (hl : g.walk p ls = some x) : ks = ls := by
  -- a way that ended where it starts would lead a node below itself
  have hclosed : ∀ (keys : List String) (key : String), g.walk p (keys ++ [key]) ≠ some p := by
    intro keys key h
    obtain ⟨c, hc, hparent, -⟩ := walk_append_singleton hg h
    rcases above_of_walk hg hc with rfl | habove
    · exact hg.forest.acyclic p (.parent hparent)
    · exact hg.forest.acyclic p (.step hparent habove)
  induction ks using List.reverseRecOn generalizing ls x with
  | nil =>
    cases hk
    rcases List.eq_nil_or_concat' ls with rfl | ⟨keys, key, rfl⟩
    · rfl
    · exact absurd hl (hclosed keys key)
  | append_singleton keys key ih =>
    rcases List.eq_nil_or_concat' ls with rfl | ⟨keys', key', rfl⟩
    · cases hl
      exact absurd hk (hclosed keys key)
    · obtain ⟨c, hc, hparent, hkey⟩ := walk_append_singleton hg hk
      obtain ⟨c', hc', hparent', hkey'⟩ := walk_append_singleton hg hl
      rw [hparent] at hparent'
      cases hparent'
      rw [hkey] at hkey'
      cases hkey'
      rw [ih hc hc']

/-! ## A new child -/

section

variable {key : String} {source : Source}

/-- A new child is found under its key, and nothing else is found or lost. -/
theorem childByKey_pushChild_eq (hl : g.forest.Linked) (hq : q < g.forest.size)
    (hkey : g.childByKey q key = none) (i : Nat) (k : String) :
    (g.pushChild q key source).childByKey i k
      = if i = q ∧ k = key then some g.forest.size else g.childByKey i k := by
  have hold : ∀ c ∈ g.forest.children i, (g.pushChild q key source).hasKey k c = g.hasKey k c := by
    intro c hc
    have hlt := Forest.lt_of_parent? ((hl.iff i c).mp hc)
    rw [hasKey, property?_pushChild, if_neg (Nat.ne_of_lt hlt), hasKey]
  have hnew : (g.pushChild q key source).hasKey k g.forest.size = (key == k) := by
    rw [hasKey, property?_pushChild, if_pos rfl]
    rfl
  have hfind : (g.forest.children i).find? ((g.pushChild q key source).hasKey k)
      = g.childByKey i k := List.find?_congr hold
  rw [childByKey, children_pushChild hl hq]
  by_cases hi : i = q
  · subst hi
    rw [if_pos rfl, List.find?_append, hfind, List.find?_singleton, hnew]
    by_cases hk : k = key
    · subst hk
      simp [hkey]
    · simp [hk, Ne.symm hk]
  · rw [if_neg (Ne.symm hi), hfind, if_neg fun h => hi h.1]

/-- Ways that are there stay. -/
theorem walk_pushChild (hl : g.forest.Linked) (hq : q < g.forest.size)
    (hkey : g.childByKey q key = none) {ks : List String} {x : Nat} (h : g.walk p ks = some x) :
    (g.pushChild q key source).walk p ks = some x := by
  induction ks generalizing p with
  | nil =>
    cases h
    rfl
  | cons k ks ih =>
    rw [walk_cons] at h ⊢
    obtain ⟨c, hc, hx⟩ := Option.bind_eq_some_iff.mp h
    have hold : ¬(p = q ∧ k = key) := by
      rintro ⟨rfl, rfl⟩
      rw [hkey] at hc
      cases hc
    rw [childByKey_pushChild_eq hl hq hkey, if_neg hold, hc]
    exact ih hx

/-- A way that is new leads to the parent of the new child, and ends with its key. -/
theorem walk_of_walk_pushChild (hl : g.forest.Linked) (hq : q < g.forest.size)
    (hkey : g.childByKey q key = none) {ks : List String} {x : Nat}
    (h : (g.pushChild q key source).walk p ks = some x) :
    g.walk p ks = some x ∨ ∃ ls, ks = ls ++ [key] ∧ g.walk p ls = some q := by
  induction ks generalizing p with
  | nil =>
    cases h
    exact .inl rfl
  | cons k ks ih =>
    rw [walk_cons, childByKey_pushChild_eq hl hq hkey] at h
    obtain ⟨c, hc, hx⟩ := Option.bind_eq_some_iff.mp h
    split at hc
    · next heq =>
      obtain ⟨rfl, rfl⟩ := heq
      cases hc
      refine .inr ⟨[], ?_, rfl⟩
      cases ks with
      | nil => rfl
      | cons l ls =>
        rw [walk_cons, childByKey_pushChild_self hl hq] at hx
        cases hx
    · rw [walk_cons, hc]
      rcases ih hx with hx | ⟨ls, rfl, hls⟩
      · exact .inl hx
      · refine .inr ⟨k :: ls, rfl, ?_⟩
        rw [walk_cons, hc]
        exact hls

end

/-! ## Filling in what is missing -/

/-- A graph with a node more for each of some ways from a node, in order: each way leads through the
graph as it was made so far to its last key, and is found no further. -/
inductive Fills (p : Nat) (g : Graph ω) : List (List String) → Graph ω → Prop
  | nil : Fills p g [] g
  | push {ways : List (List String)} {g' : Graph ω} {q : Nat} {ks : List String} {key : String}
      {source : Source} (h : Fills p g ways g') (hq : g'.walk p ks = some q)
      (hkey : g'.childByKey q key = none) :
      Fills p g (ways ++ [ks ++ [key]]) (g'.pushChild q key source)

theorem Fills.trans (h : Fills p g ways g') (h' : Fills p g' ways' g'') :
    Fills p g (ways ++ ways') g'' := by
  induction h' with
  | nil => rwa [List.append_nil]
  | push _ hq hkey ih =>
    rw [← List.append_assoc]
    exact .push ih hq hkey

theorem Fills.eq_of_nil (h : Fills p g [] g') : g' = g := by
  generalize hways : ([] : List (List String)) = ways at h
  cases h with
  | nil => rfl
  | push => simp at hways

theorem Fills.tidy (h : Fills p g ways g') (hg : Tidy g) (hp : g.contains p) :
    Tidy g' ∧ g'.contains p := by
  induction h with
  | nil => exact ⟨hg, hp⟩
  | push _ hq hkey ih =>
    obtain ⟨htidy, hcontains⟩ := ih
    exact ⟨tidy_pushChild htidy (contains_of_walk hcontains hq) hkey _,
      (contains_pushChild _ _ _ p).mpr (.inr hcontains)⟩

/-- Ways that are there stay, and the new ones lead somewhere. -/
theorem Fills.walk (h : Fills p g ways g') (hg : Tidy g) (hp : g.contains p) :
    (∀ i ks x, g.walk i ks = some x → g'.walk i ks = some x) ∧
      ∀ way ∈ ways, (g'.walk p way).isSome := by
  induction h with
  | nil => exact ⟨fun _ _ _ hx => hx, fun _ hway => absurd hway List.not_mem_nil⟩
  | @push ways g' q ks key source h hq hkey ih =>
    obtain ⟨htidy, hcontains⟩ := h.tidy hg hp
    have hlt := lt_of_contains (contains_of_walk hcontains hq)
    have hstays : ∀ {i ls x}, g'.walk i ls = some x →
        (g'.pushChild q key source).walk i ls = some x :=
      walk_pushChild htidy.forest.linked hlt hkey
    refine ⟨fun i ls x hx => hstays (ih.1 i ls x hx), fun way hway => ?_⟩
    rcases List.mem_append.mp hway with hway | hway
    · obtain ⟨x, hx⟩ := Option.isSome_iff_exists.mp (ih.2 way hway)
      rw [hstays hx]
      rfl
    · rw [List.mem_singleton.mp hway, walk_append, hstays hq, Option.bind_some, walk_cons,
        childByKey_pushChild_eq htidy.forest.linked hlt hkey, if_pos ⟨rfl, rfl⟩]
      rfl

/-- A way that leads somewhere did so before, or is one of the new ones. -/
theorem Fills.walk_or (h : Fills p g ways g') (hg : Tidy g) (hp : g.contains p)
    {ls : List String} {x : Nat} (hx : g'.walk p ls = some x) :
    g.walk p ls = some x ∨ ls ∈ ways := by
  induction h generalizing x with
  | nil => exact .inl hx
  | @push ways g' q ks key source h hq hkey ih =>
    obtain ⟨htidy, hcontains⟩ := h.tidy hg hp
    have hlt := lt_of_contains (contains_of_walk hcontains hq)
    rcases walk_of_walk_pushChild htidy.forest.linked hlt hkey hx with hx | ⟨ls', rfl, hls⟩
    · exact (ih hx).imp_right (List.mem_append_left _)
    · rw [walk_injective htidy hls hq]
      exact .inr (by simp)

/-- What is filled in below the node at the end of a way is filled in along the way. -/
theorem Fills.along (h : Fills q g ways g') (hg : Tidy g) (hq : g.contains q) {ks : List String}
    (hks : g.walk p ks = some q) : Fills p g (ways.map (ks ++ ·)) g' := by
  induction h with
  | nil => exact .nil
  | @push ways g' r ls key source h hr hkey ih =>
    have hway : g'.walk p (ks ++ ls) = some r := by
      rw [walk_append, (h.walk hg hq).1 p ks q hks]
      exact hr
    rw [List.map_append, List.map_singleton, ← List.append_assoc]
    exact .push ih hway hkey

/-- The nodes that were there are as they were, and stay where they are. -/
theorem Fills.kept (h : Fills p g ways g') (hg : Tidy g) (hp : g.contains p) :
    g.forest.size ≤ g'.forest.size ∧ g'.computed = g.computed ∧
    (∀ i < g.forest.size,
      g'.property? i = g.property? i ∧ g'.forest.parent? i = g.forest.parent? i) ∧
    ∀ i, ∃ new, g'.forest.children i = g.forest.children i ++ new ∧
      ∀ c ∈ new, g.forest.size ≤ c := by
  induction h with
  | nil => exact ⟨Nat.le_refl _, rfl, fun _ _ => ⟨rfl, rfl⟩, fun _ => ⟨[], by simp⟩⟩
  | @push ways g' q ks key source h hq hkey ih =>
    obtain ⟨htidy, hcontains⟩ := h.tidy hg hp
    have hlt := lt_of_contains (contains_of_walk hcontains hq)
    obtain ⟨hsize, hcomputed, hnodes, hchildren⟩ := ih
    refine ⟨by rw [size_pushChild]; omega, hcomputed, fun i hi => ?_, fun i => ?_⟩
    · have hne : i ≠ g'.forest.size := by omega
      rw [property?_pushChild, if_neg hne, parent?_pushChild, if_neg hne]
      exact hnodes i hi
    · obtain ⟨new, hnew, hold⟩ := hchildren i
      rw [children_pushChild htidy.forest.linked hlt, hnew]
      split
      · refine ⟨new ++ [g'.forest.size], List.append_assoc _ _ _, fun c hc => ?_⟩
        rcases List.mem_append.mp hc with hc | hc
        · exact hold c hc
        · rw [List.mem_singleton.mp hc]
          exact hsize
      · exact ⟨new, rfl, hold⟩

theorem count_pushChild (p : Nat) (key : String) (source : Source) :
    (g.pushChild p key source).size = g.size + 1 := by
  have hold : (List.range g.forest.size).filter (g.pushChild p key source).contains = g.ids := by
    refine List.filter_congr fun i hi => ?_
    rw [contains, property?_pushChild, if_neg (Nat.ne_of_lt (List.mem_range.mp hi)), contains]
  have hnew : (g.pushChild p key source).contains g.forest.size :=
    (contains_pushChild p key source _).mpr (.inl rfl)
  rw [size, ids, size_pushChild, List.range_succ, List.filter_append, hold,
    List.filter_singleton, hnew, List.length_append]
  rfl

/-- There is one node more for each way. -/
theorem Fills.count (h : Fills p g ways g') : g'.size = g.size + ways.length := by
  induction h with
  | nil => rfl
  | push _ _ _ ih =>
    rw [count_pushChild, ih, List.length_append, List.length_singleton, Nat.add_assoc]

/-! ## Growing fills in what is missing -/

/-- The ways to the members at the given paths that lead nowhere. -/
def missing (g : Graph ω) (p : Nat) (paths : List Path) : List (List String) :=
  (paths.map Path.keys).filter fun way => (g.walk p way).isNone

/-- Growing by a value makes the nodes that are missing, in the order of the member paths. -/
def FillsMembers (ω : Type) (v : Value) : Prop :=
  ∀ (g : Graph ω) (p : Nat) (base : Path), Tidy g → g.contains p →
    Fills p g (g.missing p v.memberPaths) (growMembers p base g v.outline)

theorem missing_append (g : Graph ω) (p : Nat) (paths paths' : List Path) :
    g.missing p (paths ++ paths') = g.missing p paths ++ g.missing p paths' := by
  rw [missing, List.map_append, List.filter_append]
  rfl

/-- What is missing at and below a member that has a node is missing below the node. -/
theorem missing_of_some {s : Segment} {c : Nat} (hc : g.childByKey p s.key = some c)
    (paths : List Path) : g.missing p ([s] :: paths.map (s :: ·))
      = (g.missing c paths).map ([s.key] ++ ·) := by
  have hway : ∀ ks, g.walk p (s.key :: ks) = g.walk c ks := fun ks => by
    rw [walk_cons, hc, Option.bind_some]
  have hfirst : (g.walk p (Path.keys [s])).isNone = false := by
    rw [show Path.keys [s] = [s.key] from rfl, hway]
    rfl
  rw [missing, missing, List.map_cons, List.filter_cons_of_neg (by simp [hfirst]), List.map_map,
    List.filter_map, List.filter_map, List.map_map]
  simp only [Function.comp_def, Path.keys, List.map_cons, hway, List.singleton_append]

/-- At and below a member that has no node, everything is missing. -/
theorem missing_of_none {s : Segment} (hs : g.childByKey p s.key = none) (paths : List Path) :
    g.missing p ([s] :: paths.map (s :: ·))
      = [s.key] :: (paths.map Path.keys).map ([s.key] ++ ·) := by
  have hway : ∀ ks, g.walk p (s.key :: ks) = none := fun ks => by rw [walk_cons, hs]; rfl
  rw [missing, List.filter_eq_self.mpr]
  · simp [Path.keys, Function.comp_def]
  · intro way hmem
    obtain ⟨path, hpath, rfl⟩ := List.mem_map.mp hmem
    rcases List.mem_cons.mp hpath with rfl | hpath
    · rw [show Path.keys [s] = s.key :: [] from rfl, hway]
      rfl
    · obtain ⟨rest, -, rfl⟩ := List.mem_map.mp hpath
      rw [show Path.keys (s :: rest) = s.key :: Path.keys rest from rfl, hway]
      rfl

/-- Below a new node everything is missing. -/
theorem missing_new (hl : g.forest.Linked) (hp : p < g.forest.size) {key : String}
    {source : Source} {paths : List Path} (hpaths : ∀ path ∈ paths, path ≠ []) :
    (g.pushChild p key source).missing g.forest.size paths = paths.map Path.keys := by
  refine List.filter_eq_self.mpr fun way hway => ?_
  obtain ⟨path, hpath, rfl⟩ := List.mem_map.mp hway
  obtain ⟨s, rest, rfl⟩ := List.exists_cons_of_ne_nil (hpaths path hpath)
  rw [show Path.keys (s :: rest) = s.key :: Path.keys rest from rfl, walk_cons,
    childByKey_pushChild_self hl hp]
  rfl

/-- One member: the node that it has, or a new one, and then the nodes below it. -/
theorem fills_growMember (hg : Tidy g) (hp : g.contains p) (base : Path) (s : Segment) {v : Value}
    (hv : FillsMembers ω v) :
    Fills p g (g.missing p ([s] :: v.memberPaths.map (s :: ·)))
      (growMember p base g (.member s v.outline)) := by
  rw [growMember]
  split
  · next c hc =>
    have hnode := contains_of_childByKey hc
    have hway : g.walk p [s.key] = some c := by
      rw [walk_cons, hc]
      rfl
    rw [missing_of_some hc]
    exact (hv g c (base ++ [s]) hg hnode).along hg hnode hway
  · next hnone =>
    have hhere : g.walk p [] = some p := rfl
    have hfirst : Fills p g [[s.key]] (g.pushChild p s.key (.data (base ++ [s]))) :=
      .push .nil hhere hnone
    have hlinked := hg.forest.linked
    have hlt := lt_of_contains hp
    have htidy := (hfirst.tidy hg hp).1
    have hnode : (g.pushChild p s.key (.data (base ++ [s]))).contains g.forest.size :=
      (contains_pushChild p s.key _ _).mpr (.inl rfl)
    have hway : (g.pushChild p s.key (.data (base ++ [s]))).walk p [s.key]
        = some g.forest.size := by
      rw [walk_cons, childByKey_pushChild_eq hlinked hlt hnone, if_pos ⟨rfl, rfl⟩]
      rfl
    have hbelow := (hv _ _ (base ++ [s]) htidy hnode).along htidy hnode hway
    rw [missing_new hlinked hlt fun path => Value.ne_nil_of_mem_memberPaths] at hbelow
    rw [missing_of_none hnone]
    exact hfirst.trans hbelow

/-- Members in a row, each with a key of its own: what is made for one of them is not what is
missing for the others. -/
theorem fills_row {ms : List (Segment × Value)} (hkeys : (ms.map fun m => m.1.key).Nodup)
    (hms : ∀ m ∈ ms, FillsMembers ω m.2) (hg : Tidy g) (hp : g.contains p) (base : Path) :
    Fills p g (g.missing p (ms.flatMap fun m => [m.1] :: m.2.memberPaths.map (m.1 :: ·)))
      (growMembers p base g (ms.map fun m => .member m.1 m.2.outline)) := by
  induction ms generalizing g with
  | nil => exact .nil
  | cons m ms ih =>
    obtain ⟨hkey, hkeys⟩ := List.nodup_cons.mp hkeys
    have hfirst := fills_growMember hg hp base m.1 (hms m List.mem_cons_self)
    obtain ⟨htidy, hcontains⟩ := hfirst.tidy hg hp
    have hrest := ih hkeys (fun n hn => hms n (List.mem_cons_of_mem _ hn)) htidy hcontains
    have hsame : (growMember p base g (.member m.1 m.2.outline)).missing p
          (ms.flatMap fun n => [n.1] :: n.2.memberPaths.map (n.1 :: ·))
        = g.missing p (ms.flatMap fun n => [n.1] :: n.2.memberPaths.map (n.1 :: ·)) := by
      refine List.filter_congr fun way hway => ?_
      obtain ⟨path, hpath, rfl⟩ := List.mem_map.mp hway
      obtain ⟨n, hn, hpath⟩ := List.mem_flatMap.mp hpath
      cases hx : g.walk p path.keys with
      | some x => rw [(hfirst.walk hg hp).1 p _ x hx]
      | none =>
        cases hy : (growMember p base g (.member m.1 m.2.outline)).walk p path.keys with
        | none => rfl
        | some y =>
          rcases hfirst.walk_or hg hp hy with hold | hnew
          · rw [hx] at hold
            cases hold
          · -- a way that was made for `m` starts with the key of `m`
            refine absurd (List.mem_map.mpr ⟨n, hn, ?_⟩) hkey
            obtain ⟨path', hpath', hsame⟩ := List.mem_map.mp (List.mem_of_mem_filter hnew)
            obtain ⟨rest, rfl⟩ := Value.exists_eq_cons hpath
            obtain ⟨rest', rfl⟩ := Value.exists_eq_cons hpath'
            exact (List.cons.inj hsame).1.symm
    rw [hsame] at hrest
    rw [List.flatMap_cons, missing_append]
    exact hfirst.trans hrest

/-- Growing makes the nodes that are missing. -/
theorem fills_growMembers {v : Value} (hv : v.isDistinct) : FillsMembers ω v := by
  induction v using Value.members_induction with
  | step v ih =>
    intro g p base hg hp
    rw [Value.memberPaths_eq, Value.outline_eq]
    exact fills_row (Value.nodup_keys_members hv)
      (fun m hm => ih m hm (Value.isDistinct_of_mem_members hv hm)) hg hp base

/-- What passing a value to a graph at a node leaves as it was, and what it adds. -/
structure Regrown (g : Graph ω) (v : Value) (p : Nat) (g' : Graph ω) : Prop where
  /-- Nodes keep their keys, sources, observers and recorded values, and their parents. -/
  kept : ∀ i, g.contains i →
    g'.property? i = g.property? i ∧ g'.forest.parent? i = g.forest.parent? i
  /-- New children come behind the ones that were there. -/
  children : ∀ i, g.contains i → ∃ new, g'.forest.children i = g.forest.children i ++ new ∧
    ∀ c ∈ new, ¬g.contains c
  computed : g'.computed = g.computed
  /-- The keys of every member lead to one node. -/
  leads : ∀ path ∈ v.memberPaths, ∃! i, g'.Leads p path.keys i
  /-- What keys led to they lead to. -/
  walk : ∀ i keys x, g.walk i keys = some x → g'.walk i keys = some x
  /-- There is a node more for each member whose keys led to none. -/
  count : g'.size = g.size + v.memberPaths.countP fun path => (g.walk p path.keys).isNone
  again : ∀ base, g'.grow v p base = .ok g'

/-- A value can be passed to a graph at any node that is there. -/
theorem regrown_of_grow (hg : Tidy g) {v : Value} (hv : v.isDistinct) (hp : g.contains p)
    (base : Path) : ∃ g', g.grow v p base = .ok g' ∧ Regrown g v p g' := by
  have hfills := fills_growMembers hv g p base hg hp
  obtain ⟨htidy, hcontains⟩ := hfills.tidy hg hp
  obtain ⟨hstays, hnew⟩ := hfills.walk hg hp
  obtain ⟨-, hcomputed, hnodes, hchildren⟩ := hfills.kept hg hp
  have hwalks : ∀ path ∈ v.memberPaths,
      ((growMembers p base g v.outline).walk p path.keys).isSome := by
    intro path hpath
    cases hx : g.walk p path.keys with
    | some x =>
      rw [hstays p _ x hx]
      rfl
    | none =>
      refine hnew _ (List.mem_filter.mpr ⟨List.mem_map_of_mem hpath, ?_⟩)
      rw [hx]
      rfl
  refine ⟨_, grow_of_contains hp v base, ?_, ?_, hcomputed, ?_, hstays, ?_, ?_⟩
  case refine_1 => exact fun i hi => hnodes i (lt_of_contains hi)
  case refine_2 =>
    intro i _
    obtain ⟨new, hi, hlarge⟩ := hchildren i
    exact ⟨new, hi, fun c hc hold => Nat.not_lt.mpr (hlarge c hc) (lt_of_contains hold)⟩
  case refine_3 =>
    intro path hpath
    obtain ⟨x, hx⟩ := Option.isSome_iff_exists.mp (hwalks path hpath)
    refine ⟨x, (leads_iff htidy).mpr hx, fun y hy => ?_⟩
    exact Option.some.inj (((leads_iff htidy).mp hy).symm.trans hx)
  case refine_4 =>
    rw [hfills.count, missing, List.filter_map, List.length_map, List.countP_eq_length_filter]
    rfl
  case refine_5 =>
    intro base'
    have hnone : (growMembers p base g v.outline).missing p v.memberPaths = [] := by
      refine List.filter_eq_nil_iff.mpr fun way hway => ?_
      obtain ⟨path, hpath, rfl⟩ := List.mem_map.mp hway
      simpa [Option.isSome_iff_ne_none] using hwalks path hpath
    have hagain := fills_growMembers hv _ p base' htidy hcontains
    rw [hnone] at hagain
    rw [grow_of_contains hcontains, hagain.eq_of_nil]

end ReactiveView.Graph
