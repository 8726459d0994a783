import ReactiveView.Proofs.Graph.Walk
/-!
# Growing graphs

Growing adds nodes for members that have none, one after the other. So what one new node keeps,
growing keeps, and every node that it adds has the path of a member.

Results:
* `grows_grow`, `grows_ofData`: growing adds nodes for members only, each in its place.
* `Grows.grown`, `Grows.place?`: graphs stay grown, and nodes that are there keep their places.
* `childByKey_ofData`: a field of the data has a node below the root.
-/
namespace ReactiveView

/-- A path leads to a member of an outline. -/
inductive Outline.Leads : List Outline → Path → Prop
  | top {os below : List Outline} {s : Segment} (h : .member s below ∈ os) : Leads os [s]
  | deep {os below : List Outline} {s : Segment} {path : Path} (h : .member s below ∈ os)
      (hp : Leads below path) : Leads os (s :: path)

namespace Value

theorem mem_outlineItems {o : Outline} {n : Nat} {items : List Value}
    (h : o ∈ outlineItems n items) :
    ∃ m w, w ∈ items ∧ o = .member (.index m) w.outline := by
  induction items generalizing n with
  | nil => rw [outlineItems] at h; cases h
  | cons v rest ih =>
    rw [outlineItems] at h
    rcases List.mem_cons.mp h with rfl | h
    · exact ⟨n, v, List.mem_cons_self, rfl⟩
    · obtain ⟨m, w, hw, ho⟩ := ih h
      exact ⟨m, w, List.mem_cons_of_mem _ hw, ho⟩

theorem mem_outlineEntries {o : Outline} {entries : List (String × Value)}
    (h : o ∈ outlineEntries entries) :
    ∃ e ∈ entries, o = .member (.field e.1) e.2.outline := by
  induction entries with
  | nil => rw [outlineEntries] at h; cases h
  | cons e rest ih =>
    obtain ⟨k, v⟩ := e
    rw [outlineEntries] at h
    rcases List.mem_cons.mp h with rfl | h
    · exact ⟨(k, v), List.mem_cons_self, rfl⟩
    · obtain ⟨e, he, ho⟩ := ih h
      exact ⟨e, List.mem_cons_of_mem _ he, ho⟩

/-- A member of a value's outline is an index of a list or a field of a record. -/
theorem mem_outline {v : Value} {s : Segment} {below : List Outline}
    (h : .member s below ∈ v.outline) : ∃ w : Value, below = w.outline ∧
      ((∃ items m, v = .list items ∧ w ∈ items ∧ s = .index m) ∨
        ∃ entries k, v = .record entries ∧ (k, w) ∈ entries ∧ s = .field k) := by
  cases v with
  | list items =>
    rw [outline] at h
    obtain ⟨m, w, hw, ho⟩ := mem_outlineItems h
    cases ho
    exact ⟨w, rfl, .inl ⟨items, m, rfl, hw, rfl⟩⟩
  | record entries =>
    rw [outline] at h
    obtain ⟨e, he, ho⟩ := mem_outlineEntries h
    cases ho
    exact ⟨e.2, rfl, .inr ⟨entries, e.1, rfl, he, rfl⟩⟩
  | null => exact absurd h List.not_mem_nil
  | bool b => exact absurd h List.not_mem_nil
  | number n => exact absurd h List.not_mem_nil
  | text s => exact absurd h List.not_mem_nil

theorem isPlain_of_mem_outline {v : Value} (hv : v.isPlain) {s : Segment} {below : List Outline}
    (h : .member s below ∈ v.outline) : s.isPlain ∧ ∃ w : Value, w.isPlain ∧ below = w.outline := by
  obtain ⟨w, hbelow, ⟨items, m, rfl, hw, rfl⟩ | ⟨entries, k, rfl, hw, rfl⟩⟩ := mem_outline h
  · exact ⟨rfl, w, arePlain_iff.mp hv w hw, hbelow⟩
  · obtain ⟨hk, hplain⟩ := arePlainEntries_iff.mp hv _ hw
    exact ⟨hk, w, hplain, hbelow⟩

/-- The paths to the members of plain data are plain. -/
theorem isPlain_of_leads {v : Value} (hv : v.isPlain) {path : Path}
    (h : Outline.Leads v.outline path) : path.isPlain := by
  induction path generalizing v with
  | nil => cases h
  | cons s path ih =>
    cases h with
    | top hm =>
      have hs := (isPlain_of_mem_outline hv hm).1
      exact Path.isPlain_cons.mpr ⟨hs, rfl⟩
    | deep hm hp =>
      obtain ⟨hs, w, hw, rfl⟩ := isPlain_of_mem_outline hv hm
      exact Path.isPlain_cons.mpr ⟨hs, ih hw hp⟩

/-- A member at the top is a field of the data, or its key is a numeral. -/
theorem field?_of_leads {v : Value} {s : Segment} (h : Outline.Leads v.outline [s]) :
    (v.field? s.key).isSome ∨ ∃ n, s = .index n := by
  have hmem : ∃ below, .member s below ∈ v.outline := by
    cases h with
    | top hm => exact ⟨_, hm⟩
    | deep _ hp => cases hp
  obtain ⟨below, hm⟩ := hmem
  obtain ⟨w, -, ⟨items, m, -, -, rfl⟩ | ⟨entries, k, rfl, hw, rfl⟩⟩ := mem_outline hm
  · exact .inr ⟨m, rfl⟩
  · refine .inl ?_
    rw [Option.isSome_iff_ne_none]
    exact fun hnone => (Entries.get?_eq_none_iff entries k).mp hnone (List.mem_map_of_mem hw)

theorem member_mem_outlineEntries {k : String} {w : Value} {entries : List (String × Value)}
    (h : (k, w) ∈ entries) : .member (.field k) w.outline ∈ outlineEntries entries := by
  induction entries with
  | nil => cases h
  | cons e rest ih =>
    obtain ⟨k', w'⟩ := e
    rw [outlineEntries]
    rcases List.mem_cons.mp h with heq | h
    · cases heq
      exact List.mem_cons_self
    · exact List.mem_cons_of_mem _ (ih h)

/-- A field of the data is a member of its outline. -/
theorem mem_outline_of_field? {v : Value} {k : String} (h : (v.field? k).isSome) :
    ∃ below, .member (.field k) below ∈ v.outline := by
  cases v with
  | record entries =>
    have hk : k ∈ Entries.keys entries := by
      refine Classical.byContradiction fun hnot => ?_
      have hnone : (Value.record entries).field? k = none :=
        (Entries.get?_eq_none_iff entries k).mpr hnot
      rw [hnone] at h
      cases h
    obtain ⟨⟨k', w⟩, hw, rfl⟩ := List.mem_map.mp hk
    rw [outline]
    exact ⟨_, member_mem_outlineEntries hw⟩
  | list items => cases h
  | null => cases h
  | bool b => cases h
  | number n => cases h
  | text s => cases h

end Value

namespace Graph

variable {ω : Type} {g g' g'' : Graph ω} {ok ok' : Path → Prop}

/-- A graph with nodes more, each for a member that had none, below the node of the data around it.
The paths of the new nodes are all `ok`. -/
inductive Grows (ok : Path → Prop) (g : Graph ω) : Graph ω → Prop
  | refl : Grows ok g g
  | push {g' : Graph ω} {p : Nat} {base path : Path} {s : Segment} (h : Grows ok g g')
      (hp : g'.location? p = some base) (hkeys : path.keys = base.keys)
      (hs : g'.childByKey p s.key = none) (hok : ok (path ++ [s])) :
      Grows ok g (g'.pushChild p s.key (.data (path ++ [s])))

theorem Grows.trans (h : Grows ok g g') (h' : Grows ok g' g'') : Grows ok g g'' := by
  induction h' with
  | refl => exact h
  | push _ hp hkeys hs hok ih => exact .push ih hp hkeys hs hok

theorem Grows.imp (h : Grows ok g g') (himp : ∀ path, ok path → ok' path) : Grows ok' g g' := by
  induction h with
  | refl => exact .refl
  | push _ hp hkeys hs hok ih => exact .push ih hp hkeys hs (himp _ hok)

/-- Growing keeps graphs grown. -/
theorem Grows.grown (h : Grows ok g g') (hg : Grown g) : Grown g' := by
  induction h with
  | refl => exact hg
  | push _ hp hkeys hs _ ih => exact grown_pushChild ih hp hkeys hs

/-- Nodes that are there keep their places. -/
theorem Grows.place? (h : Grows ok g g') {i : Nat} (hi : i < g.forest.size) :
    g'.place? i = g.place? i ∧ g.forest.size ≤ g'.forest.size := by
  induction h with
  | refl => exact ⟨rfl, Nat.le_refl _⟩
  | push _ _ _ _ _ ih =>
    obtain ⟨hplace, hsize⟩ := ih
    rw [place?_pushChild, if_neg (Nat.ne_of_lt (Nat.lt_of_lt_of_le hi hsize)), size_pushChild]
    exact ⟨hplace, Nat.le_succ_of_le hsize⟩

theorem Grows.location? (h : Grows ok g g') {i : Nat} {path : Path}
    (hi : g.location? i = some path) : g'.location? i = some path := by
  rw [Graph.location?, (h.place? (lt_of_location? hi)).1]
  exact hi

/-- A node that is new has a path that is `ok`. -/
theorem Grows.source (h : Grows ok g g') {i : Nat} {k : String} {source : Source}
    (hi : g'.place? i = some (k, source)) :
    g.place? i = some (k, source) ∨ ∃ path s, source = .data (path ++ [s]) ∧ ok (path ++ [s]) := by
  induction h with
  | refl => exact .inl hi
  | @push g' p base path s _ _ _ _ hok ih =>
    rw [place?_pushChild] at hi
    split at hi
    · cases hi
      exact .inr ⟨path, s, rfl, hok⟩
    · exact ih hi

/-- A node at the top that is new, after growing for a value of the data, is that of a member of the
data itself. -/
theorem Grows.top_or {data v : Value} {path : Path} (hv : data.at? path = some v)
    (h : Grows (fun q => ∃ rest, q = path ++ rest ∧ Outline.Leads v.outline rest) g g') {i : Nat}
    {k : String} {s : Segment} (hi : g'.place? i = some (k, .data [s])) :
    g.place? i = some (k, .data [s]) ∨ Outline.Leads data.outline [s] := by
  rcases h.source hi with hold | ⟨q, t, heq, rest, hrest, hleads⟩
  · exact .inl hold
  · rw [Source.data.injEq] at heq
    rw [← heq] at hrest
    cases path with
    | nil =>
      cases hv
      rw [List.nil_append] at hrest
      exact .inr (hrest ▸ hleads)
    | cons t path =>
      rw [List.cons_append, List.cons.injEq] at hrest
      have hnil := (List.append_eq_nil_iff.mp hrest.2.symm).2
      rw [hnil] at hleads
      cases hleads

theorem Grows.location_or (h : Grows ok g g') {i : Nat} {path : Path}
    (hi : g'.location? i = some path) : g.location? i = some path ∨ ok path := by
  obtain ⟨⟨k, source⟩, hplace, hpath⟩ := Option.bind_eq_some_iff.mp hi
  rcases h.source hplace with hold | ⟨q, s, rfl, hok⟩
  · exact .inl (Option.bind_eq_some_iff.mpr ⟨_, hold, hpath⟩)
  · cases hpath
    exact .inr hok

theorem Grows.computed (h : Grows ok g g') : g'.computed = g.computed := by
  induction h with
  | refl => rfl
  | push _ _ _ _ _ ih => exact ih

/-- Children that are there stay where they are. -/
theorem Grows.childByKey (h : Grows ok g g') (hg : Grown g) {p c : Nat} {key : String}
    (hc : g.childByKey p key = some c) : g'.childByKey p key = some c := by
  induction h with
  | refl => exact hc
  | push h hp hkeys hs _ ih =>
    have hgrown := h.grown hg
    obtain ⟨hparent, hkey⟩ := (childByKey_eq_some_iff hgrown).mp ih
    have hne := Nat.ne_of_lt (Forest.lt_of_parent? hparent)
    refine (childByKey_eq_some_iff (grown_pushChild hgrown hp hkeys hs)).mpr ⟨?_, ?_⟩
    · rw [parent?_pushChild, if_neg hne, hparent]
    · rw [place?_pushChild, if_neg hne, hkey]

mutual

theorem grows_growMember (g : Graph ω) (hg : Grown g) (p : Nat) (base path : Path)
    (hp : g.location? p = some base) (hkeys : path.keys = base.keys) (o : Outline)
    (hok : ∀ rest, Outline.Leads [o] rest → ok (path ++ rest)) :
    Grows ok g (growMember p path g o) := by
  cases o with
  | member s below =>
    have hbelow : ∀ rest, Outline.Leads below rest → ok ((path ++ [s]) ++ rest) := by
      intro rest hrest
      rw [List.append_assoc]
      exact hok (s :: rest) (.deep List.mem_cons_self hrest)
    rw [growMember]
    split
    · next id hid =>
      obtain ⟨base', path', hbase', hpath', hkeys'⟩ := location?_childByKey hg hid
      rw [hp] at hbase'
      cases hbase'
      refine grows_growMembers g hg id path' (path ++ [s]) hpath' ?_ below hbelow
      rw [hkeys', ← hkeys]
      simp [Path.keys]
    · next hnone =>
      have hs := hok [s] (.top List.mem_cons_self)
      have hnew : (g.pushChild p s.key (.data (path ++ [s]))).location? g.forest.size
          = some (path ++ [s]) := by
        rw [Graph.location?, place?_pushChild, if_pos rfl]
        rfl
      refine Grows.trans (.push .refl hp hkeys hnone hs) ?_
      exact grows_growMembers _ (grown_pushChild hg hp hkeys hnone) _ _ _ hnew rfl below hbelow

theorem grows_growMembers (g : Graph ω) (hg : Grown g) (p : Nat) (base path : Path)
    (hp : g.location? p = some base) (hkeys : path.keys = base.keys) (os : List Outline)
    (hok : ∀ rest, Outline.Leads os rest → ok (path ++ rest)) :
    Grows ok g (growMembers p path g os) := by
  cases os with
  | nil =>
    rw [growMembers]
    exact .refl
  | cons o os =>
    rw [growMembers]
    have hfirst : Grows ok g (growMember p path g o) := by
      refine grows_growMember g hg p base path hp hkeys o fun rest hrest => hok rest ?_
      cases hrest with
      | top h => exact .top (List.mem_cons.mpr (.inl (List.mem_singleton.mp h)))
      | deep h hr => exact .deep (List.mem_cons.mpr (.inl (List.mem_singleton.mp h))) hr
    refine hfirst.trans ?_
    refine grows_growMembers _ (hfirst.grown hg) p base path (hfirst.location? hp) hkeys os ?_
    intro rest hrest
    refine hok rest ?_
    cases hrest with
    | top h => exact .top (List.mem_cons_of_mem _ h)
    | deep h hr => exact .deep (List.mem_cons_of_mem _ h) hr

end

/-- The nodes that growing adds are those of members of the value, below its own node. -/
theorem grows_grow (hg : Grown g) {v : Value} {p : Nat} {base path : Path}
    (hp : g.location? p = some base) (hkeys : path.keys = base.keys)
    (h : g.grow v p path = .ok g') :
    Grows (fun q => ∃ rest, q = path ++ rest ∧ Outline.Leads v.outline rest) g g' := by
  unfold grow at h
  split at h
  · cases h
    exact .refl
  · split at h
    · cases h
      exact grows_growMembers g hg p base path hp hkeys v.outline fun rest hrest => ⟨rest, rfl, hrest⟩
    · cases h

/-- The nodes of a data tree below the root are those of its members. -/
theorem grows_ofData (v : Value) :
    Grows (Outline.Leads v.outline) (bare : Graph ω) (ofData v) := by
  have hgrows : Grows (fun q => ∃ rest, q = [] ++ rest ∧ Outline.Leads v.outline rest)
      (bare : Graph ω) (ofData v) :=
    grows_growMembers bare grown_bare root [] [] (location?_root grown_bare) rfl v.outline
      fun rest hrest => ⟨rest, rfl, hrest⟩
  refine hgrows.imp ?_
  rintro path ⟨rest, rfl, hrest⟩
  exact hrest

theorem grown_ofData (v : Value) : Grown (ofData v : Graph ω) := (grows_ofData v).grown grown_bare

theorem computed_ofData (v : Value) : (ofData v : Graph ω).computed = [] :=
  (grows_ofData v).computed

theorem childByKey_pushChild (hg : Grown g) {p : Nat} {base path : Path}
    (hp : g.location? p = some base) (hkeys : path.keys = base.keys) {s : Segment}
    (hs : g.childByKey p s.key = none) :
    (g.pushChild p s.key (.data (path ++ [s]))).childByKey p s.key = some g.forest.size := by
  refine (childByKey_eq_some_iff (grown_pushChild hg hp hkeys hs)).mpr ⟨?_, ?_⟩
  · rw [parent?_pushChild, if_pos rfl]
  · rw [place?_pushChild, if_pos rfl]
    rfl

theorem childByKey_growMember (hg : Grown g) {p : Nat} {base path : Path}
    (hp : g.location? p = some base) (hkeys : path.keys = base.keys) (s : Segment)
    (below : List Outline) :
    ((growMember p path g (.member s below)).childByKey p s.key).isSome := by
  rw [growMember]
  split
  · next id hid =>
    obtain ⟨base', path', hbase', hpath', hkeys'⟩ := location?_childByKey hg hid
    rw [hp] at hbase'
    cases hbase'
    have hgrows : Grows (fun _ => True) g (growMembers id (path ++ [s]) g below) := by
      refine grows_growMembers g hg id path' (path ++ [s]) hpath' ?_ below fun _ _ => trivial
      rw [hkeys', ← hkeys]
      simp [Path.keys]
    rw [hgrows.childByKey hg hid]
    rfl
  · next hnone =>
    have hgrown := grown_pushChild hg hp hkeys hnone
    have hnew : (g.pushChild p s.key (.data (path ++ [s]))).location? g.forest.size
        = some (path ++ [s]) := by
      rw [Graph.location?, place?_pushChild, if_pos rfl]
      rfl
    have hgrows : Grows (fun _ => True) (g.pushChild p s.key (.data (path ++ [s])))
        (growMembers g.forest.size (path ++ [s]) (g.pushChild p s.key (.data (path ++ [s])))
          below) := grows_growMembers _ hgrown _ _ _ hnew rfl below fun _ _ => trivial
    rw [hgrows.childByKey hgrown (childByKey_pushChild hg hp hkeys hnone)]
    rfl

/-- Growing leaves no member at the top without a node. -/
theorem childByKey_growMembers (hg : Grown g) {p : Nat} {base path : Path}
    (hp : g.location? p = some base) (hkeys : path.keys = base.keys) {os below : List Outline}
    {s : Segment} (h : .member s below ∈ os) :
    ((growMembers p path g os).childByKey p s.key).isSome := by
  induction os generalizing g with
  | nil => cases h
  | cons o os ih =>
    have hfirst : Grows (fun _ => True) g (growMember p path g o) :=
      grows_growMember g hg p base path hp hkeys o fun _ _ => trivial
    have hgrown := hfirst.grown hg
    have hplace := hfirst.location? hp
    rw [growMembers]
    rcases List.mem_cons.mp h with rfl | h
    · obtain ⟨c, hc⟩ := Option.isSome_iff_exists.mp (childByKey_growMember hg hp hkeys s below)
      have hrest : Grows (fun _ => True) _ (growMembers p path _ os) :=
        grows_growMembers _ hgrown p base path hplace hkeys os fun _ _ => trivial
      rw [hrest.childByKey hgrown hc]
      rfl
    · exact ih hgrown hplace h

/-- Every field of the data has a node below the root. -/
theorem childByKey_ofData {v : Value} {k : String} (h : (v.field? k).isSome) :
    ((ofData v : Graph ω).childByKey root k).isSome := by
  obtain ⟨below, hmem⟩ := Value.mem_outline_of_field? h
  exact childByKey_growMembers grown_bare (location?_root grown_bare) rfl hmem

end Graph

end ReactiveView
