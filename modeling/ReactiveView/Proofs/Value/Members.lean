import ReactiveView.Proofs.Value.Write
/-!
# Members at every level

The paths to all members of a value, each before the paths to the members below it, as going through
`members` again and again gives them. As long as no record has a key twice, every path leads to the
member that it was made for, and the paths that go one step on from another one are those of the
members there, in order.

Results:
* `outline_eq`: the outline of a value is the tree of its members.
* `at?_of_mem_memberPaths`: the paths lead to members.
* `filter_memberPaths`: the members of a member, picked out of all the paths.
-/
namespace ReactiveView.Value

variable {v w : Value} {m : Segment × Value} {path : Path}

theorem sizeOf_lt_of_mem_members (h : m ∈ v.members) : sizeOf m.2 < sizeOf v := by
  cases v with
  | list items =>
    obtain ⟨i, hi, rfl⟩ := List.mem_mapIdx.mp h
    have hmem := List.sizeOf_lt_of_mem (List.getElem_mem hi)
    simp only [Value.list.sizeOf_spec]
    omega
  | record entries =>
    obtain ⟨e, he, rfl⟩ := List.mem_map.mp h
    have hmem := List.sizeOf_lt_of_mem he
    have hvalue : sizeOf e.2 < sizeOf e := by
      obtain ⟨k, u⟩ := e
      simp only [Prod.mk.sizeOf_spec]
      omega
    simp only [Value.record.sizeOf_spec]
    omega
  | null => exact absurd h List.not_mem_nil
  | bool b => exact absurd h List.not_mem_nil
  | number n => exact absurd h List.not_mem_nil
  | text s => exact absurd h List.not_mem_nil

/-- What passes from the members of a value to the value holds of every value. -/
theorem members_induction {motive : Value → Prop}
    (step : ∀ v : Value, (∀ m ∈ v.members, motive m.2) → motive v) (v : Value) : motive v :=
  step v fun m _ => members_induction step m.2
termination_by sizeOf v
decreasing_by exact sizeOf_lt_of_mem_members ‹_›

/-- The paths to the members at every level, each before those of the members below it. -/
def memberPaths (v : Value) : List Path :=
  v.members.attach.flatMap fun m => [m.1.1] :: (memberPaths m.1.2).map (m.1.1 :: ·)
termination_by sizeOf v
decreasing_by exact sizeOf_lt_of_mem_members m.2

theorem memberPaths_eq (v : Value) : v.memberPaths
    = v.members.flatMap fun m => [m.1] :: m.2.memberPaths.map (m.1 :: ·) := by
  conv => rhs; rw [← v.members.attach_map_subtype_val, List.flatMap_map]
  rw [memberPaths]

/-- The path to a member and those to what is below it start with its segment. -/
theorem exists_eq_cons {s : Segment} (h : path ∈ [s] :: w.memberPaths.map (s :: ·)) :
    ∃ rest, path = s :: rest := by
  rcases List.mem_cons.mp h with rfl | h
  · exact ⟨[], rfl⟩
  · obtain ⟨rest, -, rfl⟩ := List.mem_map.mp h
    exact ⟨rest, rfl⟩

theorem ne_nil_of_mem_memberPaths (h : path ∈ v.memberPaths) : path ≠ [] := by
  rw [memberPaths_eq] at h
  obtain ⟨m, -, h⟩ := List.mem_flatMap.mp h
  obtain ⟨rest, rfl⟩ := exists_eq_cons h
  exact List.cons_ne_nil _ _

/-- A path to a member starts with a member of the whole, and then is at its end or leads to a
member of that one. -/
theorem cons_mem_memberPaths {s : Segment} {rest : Path} :
    s :: rest ∈ v.memberPaths ↔ ∃ m ∈ v.members, m.1 = s ∧ rest ∈ [] :: m.2.memberPaths := by
  rw [memberPaths_eq, List.mem_flatMap]
  refine exists_congr fun m => and_congr_right fun _ => ?_
  simp only [List.mem_cons, List.mem_map, List.cons.injEq]
  grind

/-! ## The outline -/

theorem outlineItems_eq (n : Nat) (items : List Value) : outlineItems n items
    = (items.mapIdx fun i u => (Segment.index (n + i), u)).map fun m => .member m.1 m.2.outline := by
  induction items generalizing n with
  | nil => rfl
  | cons u rest ih =>
    rw [outlineItems, ih, List.mapIdx_cons, List.map_cons]
    simp only [Nat.add_zero, Nat.add_assoc, Nat.add_comm 1]

theorem outlineEntries_eq (entries : List (String × Value)) : outlineEntries entries
    = (entries.map fun e => (Segment.field e.1, e.2)).map fun m => .member m.1 m.2.outline := by
  induction entries with
  | nil => rfl
  | cons e rest ih =>
    obtain ⟨k, u⟩ := e
    rw [outlineEntries, ih]
    rfl

/-- The outline of a value is the tree of its members. -/
theorem outline_eq (v : Value) :
    v.outline = v.members.map fun m => .member m.1 m.2.outline := by
  cases v with
  | list items =>
    rw [outline, outlineItems_eq]
    simp only [Nat.zero_add]
    rfl
  | record entries =>
    rw [outline, outlineEntries_eq]
    rfl
  | null => rfl
  | bool b => rfl
  | number n => rfl
  | text s => rfl

/-! ## Values without repeated keys -/

mutual

/-- Whether no record has a key twice, at any level. -/
def isDistinct : Value → Bool
  | .list items => areDistinct items
  | .record entries => decide (Entries.keys entries).Nodup && areDistinctEntries entries
  | _ => true

/-- The same for the items of a list. -/
def areDistinct : List Value → Bool
  | [] => true
  | v :: rest => isDistinct v && areDistinct rest

/-- The same for the entries of a record. -/
def areDistinctEntries : List (String × Value) → Bool
  | [] => true
  | (_, v) :: rest => isDistinct v && areDistinctEntries rest

end

theorem areDistinct_iff {items : List Value} :
    areDistinct items ↔ ∀ u ∈ items, u.isDistinct := by
  induction items with
  | nil => simp [areDistinct]
  | cons u rest ih => simp [areDistinct, ih]

theorem areDistinctEntries_iff {entries : List (String × Value)} :
    areDistinctEntries entries ↔ ∀ e ∈ entries, e.2.isDistinct := by
  induction entries with
  | nil => simp [areDistinctEntries]
  | cons e rest ih =>
    obtain ⟨k, u⟩ := e
    simp [areDistinctEntries, ih]

theorem isDistinct_of_mem_members (h : v.isDistinct) (hm : m ∈ v.members) : m.2.isDistinct := by
  cases v with
  | list items =>
    obtain ⟨i, hi, rfl⟩ := List.mem_mapIdx.mp hm
    exact areDistinct_iff.mp h _ (List.getElem_mem hi)
  | record entries =>
    obtain ⟨e, he, rfl⟩ := List.mem_map.mp hm
    exact areDistinctEntries_iff.mp (Bool.and_eq_true_iff.mp h).2 e he
  | null => exact absurd hm List.not_mem_nil
  | bool b => exact absurd hm List.not_mem_nil
  | number n => exact absurd hm List.not_mem_nil
  | text s => exact absurd hm List.not_mem_nil

/-- The members of a value have different keys. -/
theorem nodup_keys_members (h : v.isDistinct) : (v.members.map fun m => m.1.key).Nodup := by
  cases v with
  | list items =>
    have hkeys : ((Value.list items).members.map fun m => m.1.key)
        = (List.range items.length).map fun n => String.ofList (Text.decimal n) := by
      refine List.ext_getElem (by simp [members]) fun i hi hi' => ?_
      simp [members, Segment.key]
    rw [hkeys]
    exact List.pairwise_map.mpr (List.nodup_range.imp fun hne heq => hne (ofList_decimal_inj heq))
  | record entries =>
    have hkeys : ((Value.record entries).members.map fun m => m.1.key) = Entries.keys entries := by
      simp [members, Entries.keys, Segment.key, Function.comp_def]
    rw [hkeys]
    exact of_decide_eq_true (Bool.and_eq_true_iff.mp h).1
  | null => exact List.nodup_nil
  | bool b => exact List.nodup_nil
  | number n => exact List.nodup_nil
  | text s => exact List.nodup_nil

theorem get?_of_mem {α : Type} {es : Entries α} {key : String} {a : α} (hkeys : es.keys.Nodup)
    (h : (key, a) ∈ es) : es.get? key = some a := by
  induction es with
  | nil => cases h
  | cons e rest ih =>
    obtain ⟨k, b⟩ := e
    obtain ⟨hk, hrest⟩ := List.nodup_cons.mp hkeys
    rcases List.mem_cons.mp h with heq | h
    · cases heq
      simp [Entries.get?]
    · have hne : k ≠ key := fun heq => hk (heq ▸ List.mem_map.mpr ⟨_, h, rfl⟩)
      simp only [Entries.get?, if_neg hne]
      exact ih hrest h

/-- The segment of a member leads to it. -/
theorem member?_of_mem_members (h : v.isDistinct) (hm : m ∈ v.members) :
    v.member? m.1 = some m.2 := by
  cases v with
  | list items =>
    obtain ⟨i, hi, rfl⟩ := List.mem_mapIdx.mp hm
    simp [member?, Segment.element?, hi]
  | record entries =>
    obtain ⟨e, he, rfl⟩ := List.mem_map.mp hm
    exact get?_of_mem (of_decide_eq_true (Bool.and_eq_true_iff.mp h).1) he
  | null => exact absurd hm List.not_mem_nil
  | bool b => exact absurd hm List.not_mem_nil
  | number n => exact absurd hm List.not_mem_nil
  | text s => exact absurd hm List.not_mem_nil

/-- The paths lead to members. -/
theorem at?_of_mem_memberPaths (h : v.isDistinct) (hpath : path ∈ [] :: v.memberPaths) :
    ∃ w, v.at? path = some w := by
  induction path generalizing v with
  | nil => exact ⟨v, rfl⟩
  | cons s rest ih =>
    obtain ⟨m, hm, rfl, hrest⟩ := cons_mem_memberPaths.mp (by simpa using hpath)
    obtain ⟨w, hw⟩ := ih (isDistinct_of_mem_members h hm) hrest
    exact ⟨w, by rw [at?, member?_of_mem_members h hm, Option.bind_some, hw]⟩

/-- What only the member at one segment contributes to. -/
theorem flatMap_members_eq {α : Type} (h : v.isDistinct) (hm : m ∈ v.members)
    {f : Segment × Value → List α} (hf : ∀ n ∈ v.members, n.1 ≠ m.1 → f n = []) :
    v.members.flatMap f = f m := by
  obtain ⟨before, after, hsplit⟩ := List.append_of_mem hm
  have hkeys := nodup_keys_members h
  rw [hsplit] at hkeys hf ⊢
  simp only [List.map_append, List.map_cons, List.nodup_append, List.nodup_cons] at hkeys
  obtain ⟨-, ⟨hafter, -⟩, hbefore⟩ := hkeys
  have hnone : ∀ n, n ∈ before ∨ n ∈ after → f n = [] := by
    rintro n (hn | hn)
    · refine hf n (by simp [hn]) fun heq => ?_
      exact hbefore _ (List.mem_map_of_mem hn) _ List.mem_cons_self (by rw [heq])
    · refine hf n (by simp [hn]) fun heq => hafter ?_
      exact heq ▸ List.mem_map_of_mem hn
  rw [List.flatMap_append, List.flatMap_cons,
    List.flatMap_eq_nil_iff.mpr fun n hn => hnone n (.inl hn),
    List.flatMap_eq_nil_iff.mpr fun n hn => hnone n (.inr hn), List.nil_append, List.append_nil]

/-- Of a member and the paths below it, the member goes one step on from the whole. -/
theorem filter_paths_nil (s : Segment) (w : Value) :
    ([s] :: w.memberPaths.map (s :: ·)).filter (·.dropLast = []) = [[s]] := by
  refine congrArg ([s] :: ·) (List.filter_eq_nil_iff.mpr fun path hpath => ?_)
  obtain ⟨rest, hrest, rfl⟩ := List.mem_map.mp hpath
  simp [List.dropLast_cons_of_ne_nil (ne_nil_of_mem_memberPaths hrest)]

/-- Of a member and the paths below it, those that go one step on from a path through the member are
those that do so below it. -/
theorem filter_paths_cons (s t : Segment) (w : Value) (rest : Path) :
    ([s] :: w.memberPaths.map (s :: ·)).filter (·.dropLast = t :: rest)
      = if s = t then (w.memberPaths.filter (·.dropLast = rest)).map (s :: ·) else [] := by
  have hstep : ∀ path ∈ w.memberPaths, (s :: path).dropLast = s :: path.dropLast :=
    fun path h => List.dropLast_cons_of_ne_nil (ne_nil_of_mem_memberPaths h)
  rw [List.filter_cons_of_neg (by simp), List.filter_map]
  split
  · next heq =>
    subst heq
    refine congrArg _ (List.filter_congr fun path hpath => ?_)
    simp [hstep path hpath]
  · next hne =>
    refine List.map_eq_nil_iff.mpr (List.filter_eq_nil_iff.mpr fun path hpath => ?_)
    simp [hstep path hpath, hne]

/-- The paths that go one step on from a path are those of the members where it leads, in order. -/
theorem filter_memberPaths (h : v.isDistinct) (hpath : path ∈ [] :: v.memberPaths)
    (hw : v.at? path = some w) :
    v.memberPaths.filter (·.dropLast = path) = w.members.map fun m => path ++ [m.1] := by
  induction path generalizing v with
  | nil =>
    cases hw
    rw [memberPaths_eq, List.filter_flatMap]
    simp only [filter_paths_nil, List.nil_append]
    exact List.map_eq_flatMap.symm
  | cons s rest ih =>
    obtain ⟨m, hm, rfl, hrest⟩ := cons_mem_memberPaths.mp (by simpa using hpath)
    rw [at?, member?_of_mem_members h hm, Option.bind_some] at hw
    have hbelow := ih (isDistinct_of_mem_members h hm) hrest hw
    rw [memberPaths_eq, List.filter_flatMap]
    simp only [filter_paths_cons]
    rw [flatMap_members_eq h hm fun n _ hne => if_neg hne, if_pos rfl, hbelow, List.map_map]
    rfl

end ReactiveView.Value
