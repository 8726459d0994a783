import ReactiveView.Proofs.Value.Spelling
/-!
# Reading after writing

A path is a lens on the data. What is written at it is read there, the value that a write answers is
the one that was there, the last of two writes counts, and writing back what was there undoes a
write, entry for entry. And a write is not seen from aside: by a path that at some step goes to
another member of the same container.

One step of a path is either a `put`, which may create a member, or a `replace`, for a member that
is there. The second is a case of the first, so the laws are proved of `put` and passed on.

Results:
* `at?_setFrom`, `setFrom_setFrom`, `setFrom_restore`: the laws of one path.
* `at?_setFrom_of_aside`: the law of two paths; `at?_set_of_apart` is its case for plain paths.
* `lens_of_set`: all of them.
-/
namespace ReactiveView

namespace Entries

variable {α : Type}

/-- The last of two writes to a key counts. -/
theorem insert_insert (es : Entries α) (key : String) (a b : α) :
    (es.insert key a).insert key b = es.insert key b := by
  induction es with
  | nil => simp [insert]
  | cons e rest ih =>
    obtain ⟨k, c⟩ := e
    by_cases hk : k = key
    · simp [insert, hk]
    · simp [insert, hk, ih]

/-- Writing what is there changes nothing. -/
theorem insert_of_get? {es : Entries α} {key : String} {a : α} (h : es.get? key = some a) :
    es.insert key a = es := by
  induction es with
  | nil => cases h
  | cons e rest ih =>
    obtain ⟨k, c⟩ := e
    simp only [get?] at h
    split at h
    · next hk =>
      cases h
      simp [insert, hk]
    · next hk => simp [insert, hk, ih h]

end Entries

namespace Value

variable {v v' w x y old : Value} {s t : Segment} {p q : Path} {before before' : Path}

/-- Two segments for different places in a value: two keys of a record, or two elements of a list,
of which one may be none at all. -/
def OtherStep : Value → Segment → Segment → Prop
  | .record _, s, t => s.key ≠ t.key
  | .list _, s, t => s.element? ≠ t.element?
  | _, _, _ => False

/-- The second path at some step goes to another member of the same container than the first. -/
inductive Aside : Value → Path → Path → Prop
  | part {v : Value} {s t : Segment} {p q : Path} (h : OtherStep v s t) : Aside v (s :: p) (t :: q)
  | step {v w : Value} {s t : Segment} {p q : Path} (h : SameStep v s t)
      (hw : v.member? s = some w) (hrest : Aside w p q) : Aside v (s :: p) (t :: q)

/-! ## One step -/

/-- The items with one written at an index, which may be the one just past the end. -/
def written (items : List Value) (n : Nat) (x : Value) : List Value :=
  items.take n ++ x :: items.drop (n + 1)

theorem getElem?_written {items : List Value} {n : Nat} (hn : n ≤ items.length) (x : Value)
    (m : Nat) : (written items n x)[m]? = if m = n then some x else items[m]? := by
  have hlength : (items.take n).length = n := by rw [List.length_take, Nat.min_eq_left hn]
  unfold written
  rcases Nat.lt_trichotomy m n with hlt | heq | hgt
  · rw [if_neg (by omega), List.getElem?_append_left (by omega), List.getElem?_take_of_lt hlt]
  · rw [if_pos heq, List.getElem?_append_right (by omega), heq, hlength, Nat.sub_self]
    rfl
  · obtain ⟨k, rfl⟩ : ∃ k, m = n + 1 + k := ⟨m - (n + 1), by omega⟩
    rw [if_neg (by omega), List.getElem?_append_right (by omega), hlength,
      show n + 1 + k - n = k + 1 by omega, List.getElem?_cons_succ, List.getElem?_drop]

/-- The last of two writes at an index counts. -/
theorem written_written {items : List Value} {n : Nat} (hn : n ≤ items.length) (x y : Value) :
    written (written items n x) n y = written items n y := by
  have hlength : (items.take n).length = n := by rw [List.length_take, Nat.min_eq_left hn]
  unfold written
  rw [List.take_append_of_le_length (by omega), List.take_take, Nat.min_self, List.drop_append,
    hlength, show n + 1 - n = 1 by omega, List.drop_of_length_le (by omega)]
  rfl

/-- Writing what is there changes nothing. -/
theorem written_of_getElem? {items : List Value} {n : Nat} (h : items[n]? = some w) :
    written items n w = items := by
  obtain ⟨hlt, hw⟩ := List.getElem?_eq_some_iff.mp h
  rw [written, ← hw, List.getElem_cons_drop, List.take_append_drop]

theorem put_list {items : List Value} {n : Nat} (hs : s.element? = some n) (hn : n ≤ items.length)
    (x : Value) (before : Path) : (Value.list items).put s x before
      = .ok ((items[n]?).getD .null, .list (written items n x)) := by
  simp only [put, hs]
  split
  · next hlt =>
    have hset := List.set_eq_take_append_cons_drop (l := items) (i := n) (a := x)
    rw [if_pos hlt] at hset
    rw [hset, List.getElem?_eq_getElem hlt]
    rfl
  · next hge =>
    have heq : n = items.length := by omega
    simp [heq, written]

/-- A write to a member goes to a key of a record, or to an element of a list, or adds an element at
its end. -/
theorem put_eq_ok (h : v.put s x before = .ok (old, v')) :
    (∃ entries, v = .record entries ∧ old = (Entries.get? entries s.key).getD .null ∧
      v' = .record (Entries.insert entries s.key x)) ∨
    ∃ items n, v = .list items ∧ s.element? = some n ∧ n ≤ items.length ∧
      old = (items[n]?).getD .null ∧ v' = .list (written items n x) := by
  cases v with
  | record entries =>
    cases h
    exact .inl ⟨entries, rfl, rfl, rfl⟩
  | list items =>
    cases hs : s.element? with
    | none =>
      simp only [put, hs] at h
      cases h
    | some n =>
      by_cases hn : n ≤ items.length
      · rw [put_list hs hn] at h
        cases h
        exact .inr ⟨items, n, rfl, rfl, hn, rfl, rfl⟩
      · have hlt : ¬n < items.length := fun hlt => hn (Nat.le_of_lt hlt)
        have hne : n ≠ items.length := fun heq => hn (Nat.le_of_eq heq)
        simp only [put, hs, dif_neg hlt, if_neg hne] at h
        cases h
  | null => cases h
  | bool b => cases h
  | number n => cases h
  | text c => cases h

theorem member?_put (h : v.put s x before = .ok (old, v')) :
    v'.member? s = some x ∧ old = (v.member? s).getD .null := by
  rcases put_eq_ok h with ⟨entries, rfl, rfl, rfl⟩ | ⟨items, n, rfl, hs, hn, rfl, rfl⟩
  · exact ⟨by rw [member?, Entries.get?_insert, if_pos rfl], rfl⟩
  · simp only [member?, hs, Option.bind_some, getElem?_written hn, if_pos, and_self]

/-- A write to a member leaves the others alone. -/
theorem member?_put_of_other (hst : OtherStep v s t) (h : v.put s x before = .ok (old, v')) :
    v'.member? t = v.member? t := by
  rcases put_eq_ok h with ⟨entries, rfl, rfl, rfl⟩ | ⟨items, n, rfl, hs, hn, rfl, rfl⟩
  · rw [member?, Entries.get?_insert, if_neg (Ne.symm hst), member?]
  · have hne : t.element? ≠ some n := fun ht => hst (hs.trans ht.symm)
    simp only [member?]
    cases ht : t.element? with
    | none => rfl
    | some m =>
      have hmn : m ≠ n := fun heq => hne (heq ▸ ht)
      rw [Option.bind_some, Option.bind_some, getElem?_written hn, if_neg hmn]

/-- A write keeps two segments for one place together. -/
theorem SameStep.of_put (hst : SameStep v s t) (h : v.put s x before = .ok (old, v')) :
    SameStep v' s t := by
  rcases put_eq_ok h with ⟨entries, rfl, -, rfl⟩ | ⟨items, n, rfl, hs, hn, -, rfl⟩
  · exact hst
  · obtain ⟨m, -, hs', ht⟩ := hst
    obtain rfl : n = m := Option.some.inj (hs.symm.trans hs')
    have hget := getElem?_written hn x n
    rw [if_pos rfl] at hget
    exact ⟨n, Nat.le_of_lt (List.getElem?_eq_some_iff.mp hget).1, hs, ht⟩

/-- The last of two writes to a member counts, and finds what the first has written. -/
theorem put_put (h : v.put s x before = .ok (old, v')) (y : Value) (before' before'' : Path) :
    ∃ v'', v.put s y before' = .ok (old, v'') ∧ v'.put s y before'' = .ok (x, v'') := by
  rcases put_eq_ok h with ⟨entries, rfl, rfl, rfl⟩ | ⟨items, n, rfl, hs, hn, rfl, rfl⟩
  · refine ⟨.record (Entries.insert entries s.key y), rfl, ?_⟩
    rw [put, Entries.get?_insert, if_pos rfl, Entries.insert_insert]
    rfl
  · have hx : (written items n x)[n]? = some x := by rw [getElem?_written hn, if_pos rfl]
    have hn' : n ≤ (written items n x).length :=
      Nat.le_of_lt (List.getElem?_eq_some_iff.mp hx).1
    refine ⟨.list (written items n y), put_list hs hn y before', ?_⟩
    rw [put_list hs hn', written_written hn, hx]
    rfl

/-- Writing back the member that was there undoes a write. -/
theorem put_restore (h : v.put s x before = .ok (old, v')) (hw : v.member? s = some w)
    (before' : Path) : v'.put s w before' = .ok (x, v) := by
  obtain ⟨v'', hput, hagain⟩ := put_put h w before before'
  rw [hagain]
  rcases put_eq_ok hput with ⟨entries, rfl, -, rfl⟩ | ⟨items, n, rfl, hs, hn, -, rfl⟩
  · rw [Entries.insert_of_get? hw]
  · rw [member?, hs] at hw
    rw [written_of_getElem? hw]

/-- To replace a member that is there is to write to it. -/
theorem put_of_member? (hw : v.member? s = some w) (x : Value) (before : Path) :
    v.put s x before = .ok (w, v.replace s x) := by
  cases v with
  | record entries =>
    simp only [member?] at hw
    rw [put, hw]
    rfl
  | list items =>
    obtain ⟨n, hs, hn⟩ := Option.bind_eq_some_iff.mp hw
    obtain ⟨hlt, hget⟩ := List.getElem?_eq_some_iff.mp hn
    simp only [put, replace, hs, dif_pos hlt, hget]
  | null => cases hw
  | bool b => cases hw
  | number n => cases hw
  | text c => cases hw

/-! ## Whole paths -/

/-- A write below a member is a write into the member, which is then put back. -/
theorem setFrom_cons_eq_ok (hp : p ≠ []) (h : v.setFrom before (s :: p) x = .ok (old, v')) :
    ∃ w w', v.member? s = some w ∧ w.setFrom (before ++ [s]) p x = .ok (old, w') ∧
      v.put s w' before = .ok (w, v') := by
  obtain ⟨t, p, rfl⟩ := List.exists_cons_of_ne_nil hp
  obtain ⟨w, w', hw, hset, rfl⟩ := setFrom_cons_cons h
  exact ⟨w, w', hw, hset, put_of_member? hw w' before⟩

theorem setFrom_cons_of_put (hp : p ≠ []) {w' : Value} (hw : v.member? s = some w)
    (hset : w.setFrom (before ++ [s]) p x = .ok (old, w'))
    (hput : v.put s w' before' = .ok (w, v')) :
    v.setFrom before (s :: p) x = .ok (old, v') := by
  rw [put_of_member? hw] at hput
  cases hput
  exact setFrom_of_member? hp hw hset

/-- What is written is read, and what is answered was there. -/
theorem at?_setFrom (h : v.setFrom before p x = .ok (old, v')) :
    v'.at? p = some x ∧ old = (v.at? p).getD .null := by
  induction p generalizing v v' before with
  | nil =>
    cases h
    exact ⟨rfl, rfl⟩
  | cons s p ih =>
    by_cases hp : p = []
    · subst hp
      obtain ⟨hread, hold⟩ := member?_put h
      exact ⟨by rw [at?, hread]; rfl, by rw [hold, at?]; simp [at?]⟩
    · obtain ⟨w, w', hw, hset, hput⟩ := setFrom_cons_eq_ok hp h
      obtain ⟨hread, hold⟩ := ih hset
      exact ⟨by rw [at?, (member?_put hput).1]; exact hread, by rw [at?, hw]; exact hold⟩

/-- The last of two writes counts, and finds what the first has written. -/
theorem setFrom_setFrom (h : v.setFrom before p x = .ok (old, v')) (y : Value)
    (before' before'' : Path) : ∃ v'', v.setFrom before' p y = .ok (old, v'') ∧
      v'.setFrom before'' p y = .ok (x, v'') := by
  induction p generalizing v v' before before' before'' with
  | nil =>
    cases h
    exact ⟨y, rfl, rfl⟩
  | cons s p ih =>
    by_cases hp : p = []
    · subst hp
      exact put_put h y _ _
    · obtain ⟨w, w', hw, hset, hput⟩ := setFrom_cons_eq_ok hp h
      obtain ⟨w'', hfirst, hsecond⟩ := ih hset (before' ++ [s]) (before'' ++ [s])
      obtain ⟨v'', hput', hput''⟩ := put_put hput w'' before' before''
      exact ⟨v'', setFrom_cons_of_put hp hw hfirst hput',
        setFrom_cons_of_put hp (member?_put hput).1 hsecond hput''⟩

/-- Writing back what was there undoes a write. -/
theorem setFrom_restore (h : v.setFrom before p x = .ok (old, v')) (hw : v.at? p = some w)
    (before' : Path) : v'.setFrom before' p w = .ok (x, v) := by
  induction p generalizing v v' before before' with
  | nil =>
    cases h
    cases hw
    rfl
  | cons s p ih =>
    obtain ⟨u, hu, hrest⟩ := Option.bind_eq_some_iff.mp hw
    by_cases hp : p = []
    · subst hp
      cases hrest
      exact put_restore h hu _
    · obtain ⟨u', w', hu', hset, hput⟩ := setFrom_cons_eq_ok hp h
      obtain rfl : u = u' := Option.some.inj (hu.symm.trans hu')
      have hput' := put_restore hput hu before'
      exact setFrom_cons_of_put hp (member?_put hput).1 (ih hset hrest _) hput'

/-- A write is not seen from aside. -/
theorem at?_setFrom_of_aside (hpq : Aside v p q) (h : v.setFrom before p x = .ok (old, v')) :
    v'.at? q = v.at? q := by
  induction hpq generalizing v' before with
  | @part v s t p q hst =>
    have hmember : v'.member? t = v.member? t := by
      by_cases hp : p = []
      · subst hp
        exact member?_put_of_other hst h
      · obtain ⟨w, w', -, -, hput⟩ := setFrom_cons_eq_ok hp h
        exact member?_put_of_other hst hput
    rw [at?, at?, hmember]
  | @step v w s t p q hst hw hrest ih =>
    have hp : p ≠ [] := by
      rintro rfl
      cases hrest
    obtain ⟨w₁, w', hw₁, hset, hput⟩ := setFrom_cons_eq_ok hp h
    obtain rfl : w = w₁ := Option.some.inj (hw.symm.trans hw₁)
    have hst' := hst.of_put hput
    rw [at?, at?, hst.member?, hst'.member?, hw, (member?_put hput).1]
    exact ih hset

/-- Where a write goes through, every other step is for the same place or for another one. -/
theorem sameStep_or_otherStep (h : v.put s x before = .ok (old, v')) (t : Segment) :
    SameStep v s t ∨ OtherStep v s t := by
  rcases put_eq_ok h with ⟨entries, rfl, -, -⟩ | ⟨items, n, rfl, hs, hn, -, -⟩
  · exact Decidable.em (s.key = t.key)
  · by_cases ht : s.element? = t.element?
    · exact .inl ⟨n, hn, hs, ht ▸ hs⟩
    · exact .inr ht

/-- Plain steps for one place have the same key. -/
theorem SameStep.key_eq (h : SameStep v s t) (hs : s.isPlain) (ht : t.isPlain) : s.key = t.key := by
  have hplain : ∀ u : Segment, u.isPlain → v.isPlainStep u := by
    intro u hu
    cases v <;> first | exact hu | rfl
  exact (h.key_eq_iff (hplain s hs)).mpr (hplain t ht)

/-- Plain paths that part key by key go to different members. -/
theorem aside_of_apart (hp : Path.isPlain p) (hq : Path.isPlain q) (hpq : Path.Apart p q)
    (h : v.setFrom before p x = .ok (old, v')) : Aside v p q := by
  induction p generalizing v v' q before with
  | nil => exact hpq.elim
  | cons s p ih =>
    cases q with
    | nil => exact hpq.elim
    | cons t q =>
      obtain ⟨hs, hp⟩ := Path.isPlain_cons.mp hp
      obtain ⟨ht, hq⟩ := Path.isPlain_cons.mp hq
      by_cases hnil : p = []
      · subst hnil
        have hkey : s.key ≠ t.key := hpq.resolve_right id
        exact .part ((sameStep_or_otherStep h t).resolve_left fun hst => hkey (hst.key_eq hs ht))
      · obtain ⟨w, w', hw, hset, hput⟩ := setFrom_cons_eq_ok hnil h
        rcases sameStep_or_otherStep hput t with hst | hst
        · have hrest := hpq.resolve_left fun hkey => hkey (hst.key_eq hs ht)
          exact .step hst hw (ih hp hq hrest hset)
        · exact .part hst

/-- A plain write leaves alone what its path neither leads through nor leads to. -/
theorem at?_set_of_apart (hp : Path.isPlain p) (hq : Path.isPlain q) (hpq : Path.Apart p q)
    (h : v.set p x = .ok (old, v')) : v'.at? q = v.at? q :=
  at?_setFrom_of_aside (aside_of_apart hp hq hpq h) h

/-- A path is a lens on the data, as far as writes at it succeed. What is written is read; what is
answered was there; what is aside is as before; of two writes the last counts; and a member that was
there is restored by writing it back. -/
theorem lens_of_set {data data' : Value} (h : data.set p x = .ok (old, data')) :
    data'.at? p = some x ∧ old = (data.at? p).getD .null ∧
    (∀ q, data.Aside p q → data'.at? q = data.at? q) ∧
    (∀ y, ∃ data'', data.set p y = .ok (old, data'') ∧ data'.set p y = .ok (x, data'')) ∧
    ((data.at? p).isSome → data'.set p old = .ok (x, data)) := by
  obtain ⟨hread, hold⟩ := at?_setFrom h
  refine ⟨hread, hold, fun q hq => at?_setFrom_of_aside hq h, fun y => setFrom_setFrom h y [] [],
    fun hthere => ?_⟩
  obtain ⟨w, hw⟩ := Option.isSome_iff_exists.mp hthere
  rw [hw] at hold
  rw [hold]
  exact setFrom_restore h hw []

/-- A list of lists, in which an element is reached by a numeral, and a path to its neighbour. -/
theorem lens_of_set_spelled :
    let data : Value := .record [("l", .list [.list [.null, .text "a"], .text "b"])]
    let after : Value := .record [("l", .list [.list [.null, .text "c"], .text "b"])]
    data.set [.field "l", .field "00", .index 1] (.text "c") = .ok (.text "a", after) ∧
    data.Aside [.field "l", .field "00", .index 1] [.field "l", .index 0, .field "+0"] ∧
    after.at? [.field "l", .field "00", .index 1] = some (.text "c") ∧
    after.at? [.field "l", .index 0, .field "+0"] = some .null ∧
    after.set [.field "l", .field "00", .index 1] (.text "a") = .ok (.text "c", data) := by
  intro data after
  have hset : data.set [.field "l", .field "00", .index 1] (.text "c") = .ok (.text "a", after) :=
    rfl
  have haside : data.Aside [.field "l", .field "00", .index 1]
      [.field "l", .index 0, .field "+0"] := by
    have hpart : OtherStep (.list [.null, .text "a"]) (.index 1) (.field "+0") := by
      show some 1 ≠ Text.indexOf? "+0"
      decide
    exact .step rfl rfl (.step ⟨0, Nat.zero_le _, rfl, rfl⟩ rfl (.part hpart))
  obtain ⟨hread, -, hother, -, hrestore⟩ := lens_of_set hset
  exact ⟨hset, haside, hread, (hother _ haside).trans rfl, hrestore rfl⟩

end Value

end ReactiveView
