import Mathlib.Data.List.Forall2
import Mathlib.Data.List.Induction
import ReactiveView.Entries
import ReactiveView.Value.Order
/-!
# Entries as a map with a history

Entries are a plain list, and no operation looks whether a key is there twice: `put` and `remove`
stop at the first entry with their key. That entries are a map all the same, and one in order, is a
matter of history: the edits that made them decide which keys are there, what each holds and in
which order they stand.

A history is a list of edits, and what it decides is said of the list alone, without running it:
a key is `Present` if an insertion of it has no removal behind it, `Last` is the value that the
last edit of a key has left there, and `Born` is the place in the history where a key that is there
came from (`Born.unique`). `Recalls` says that entries are what a history decides. One edit keeps it
(`Recalls.concat`), so every run has it (`recalls_after`).

Results:
* `put_eq`, `remove_eq`: what is done at the first entry with a key, as done to the whole list; for
  `remove` the keys have to be distinct.
* `Edit.apply_present`, `Edit.apply_absent`: an edit at its place, and what it replies.
* `recalls_after`: entries after any edits are what the history of the edits decides.
* `Value.same_record_iff`: records are the same iff their entries are, in order.
* `ordered_of_edits`: all of this for records, however they were built.
-/
namespace ReactiveView

namespace Entries

variable {α : Type}

/-! ## Operations at a place -/

theorem get?_modify (f : α → α) (es : Entries α) (key k : String) :
    (es.modify f key).get? k = if k = key then (es.get? k).map f else es.get? k := by
  induction es with
  | nil => simp [modify, get?]
  | cons e es ih =>
    obtain ⟨k', v⟩ := e
    simp only [modify]
    split
    next h =>
      subst h
      by_cases h' : k' = k
      · simp [get?, h']
      · simp [get?, h', Ne.symm h']
    next h =>
      simp only [get?, ih]
      by_cases h' : k' = k
      · subst h'; simp [h]
      · simp [h']

theorem keys_modify (f : α → α) (es : Entries α) (key : String) :
    (es.modify f key).keys = es.keys := by
  induction es with
  | nil => rfl
  | cons e es ih =>
    simp only [modify]
    split
    · rfl
    · simp only [keys, List.map_cons] at ih ⊢
      rw [ih]

theorem keys_append (es fs : Entries α) : (es ++ fs).keys = es.keys ++ fs.keys :=
  List.map_append

section Absent

variable {es : Entries α} {key : String} (habsent : key ∉ es.keys)
include habsent

theorem insert_absent (value : α) : es.insert key value = es ++ [(key, value)] := by
  induction es with
  | nil => rfl
  | cons e es ih =>
    simp only [keys, List.map_cons, List.mem_cons, not_or] at habsent ih
    simp [insert, Ne.symm habsent.1, ih habsent.2]

theorem modify_absent (f : α → α) : es.modify f key = es := by
  induction es with
  | nil => rfl
  | cons e es ih =>
    simp only [keys, List.map_cons, List.mem_cons, not_or] at habsent ih
    simp [modify, Ne.symm habsent.1, ih habsent.2]

theorem erase_absent : es.erase key = es := by
  refine List.filter_eq_self.mpr fun e he => ?_
  have hne : e.1 ≠ key := fun heq => habsent (heq ▸ List.mem_map_of_mem he)
  simpa using hne

theorem position_absent : es.position key = none := by
  rw [position, List.findIdx?_eq_none_iff]
  intro e he
  have hne : e.1 ≠ key := fun heq => habsent (heq ▸ List.mem_map_of_mem he)
  simpa using hne

theorem put_absent (value : α) : es.put key value = (none, es ++ [(key, value)]) := by
  rw [put, position_absent habsent]

theorem remove_absent : es.remove key = (none, es) := by
  rw [remove, position_absent habsent]

end Absent

section Place

variable {front back : Entries α} {key : String} (hfront : key ∉ front.keys)
include hfront

theorem get?_place (u : α) : get? (front ++ (key, u) :: back) key = some u := by
  induction front with
  | nil => simp [get?]
  | cons e front ih =>
    simp only [keys, List.map_cons, List.mem_cons, not_or] at hfront ih
    simpa [get?, Ne.symm hfront.1] using ih hfront.2

theorem insert_place (u value : α) :
    insert (front ++ (key, u) :: back) key value = front ++ (key, value) :: back := by
  induction front with
  | nil => simp [insert]
  | cons e front ih =>
    simp only [keys, List.map_cons, List.mem_cons, not_or] at hfront ih
    simpa [insert, Ne.symm hfront.1] using ih hfront.2

theorem modify_place (f : α → α) (u : α) :
    modify f (front ++ (key, u) :: back) key = front ++ (key, f u) :: back := by
  induction front with
  | nil => simp [modify]
  | cons e front ih =>
    simp only [keys, List.map_cons, List.mem_cons, not_or] at hfront ih
    simpa [modify, Ne.symm hfront.1] using ih hfront.2

theorem position_place (u : α) :
    position (front ++ (key, u) :: back) key = some front.length := by
  have hnone : front.findIdx? (·.1 = key) = none := position_absent hfront
  rw [position, List.findIdx?_append, hnone, List.findIdx?_cons]
  simp

theorem put_place (u value : α) :
    put (front ++ (key, u) :: back) key value = (some u, front ++ (key, value) :: back) := by
  simp [put, position_place hfront, List.modify_eq_take_drop]

theorem remove_place (u : α) :
    remove (front ++ (key, u) :: back) key = (some u, front ++ back) := by
  simp [remove, position_place hfront, List.eraseIdx_append_of_length_le]

end Place

theorem erase_place {front back : Entries α} {key : String} (hfront : key ∉ front.keys)
    (hback : key ∉ back.keys) (u : α) : erase (front ++ (key, u) :: back) key = front ++ back := by
  have hf : front.erase key = front := erase_absent hfront
  have hb : back.erase key = back := erase_absent hback
  simp only [erase] at hf hb ⊢
  rw [List.filter_append, List.filter_cons_of_neg (by simp), hf, hb]

/-- A key that is there has a first entry. -/
theorem exists_place {es : Entries α} {key : String} (h : key ∈ es.keys) :
    ∃ front u back, es = front ++ (key, u) :: back ∧ key ∉ keys front := by
  induction es with
  | nil => exact absurd h List.not_mem_nil
  | cons e es ih =>
    obtain ⟨k, v⟩ := e
    by_cases hk : k = key
    · exact ⟨[], v, es, by rw [hk]; rfl, by simp [keys]⟩
    · have hmem : key ∈ keys es := (List.mem_cons.mp h).resolve_left (Ne.symm hk)
      obtain ⟨front, u, back, rfl, hfront⟩ := ih hmem
      refine ⟨(k, v) :: front, u, back, rfl, fun hmem => ?_⟩
      exact (List.mem_cons.mp hmem).elim (Ne.symm hk) hfront

theorem notMem_keys_of_nodup {front back : Entries α} {key : String} {u : α}
    (h : (keys (front ++ (key, u) :: back)).Nodup) : key ∉ front.keys ∧ key ∉ back.keys := by
  rw [keys_append] at h
  obtain ⟨-, hback, happart⟩ := List.nodup_append.mp h
  exact ⟨fun hk => happart _ hk _ (by simp [keys]) rfl, (List.nodup_cons.mp hback).1⟩

/-- What is written through the place of a key is what an insertion writes. -/
theorem put_eq (es : Entries α) (key : String) (value : α) :
    es.put key value = (es.get? key, es.insert key value) := by
  by_cases h : key ∈ es.keys
  · obtain ⟨front, u, back, rfl, hfront⟩ := exists_place h
    rw [put_place hfront, get?_place hfront, insert_place hfront]
  · rw [put_absent h, (get?_eq_none_iff es key).mpr h, insert_absent h]

/-- Where keys are distinct, the entry at the place of a key is all that there is of the key. -/
theorem remove_eq {es : Entries α} (hnodup : es.keys.Nodup) (key : String) :
    es.remove key = (es.get? key, es.erase key) := by
  by_cases h : key ∈ es.keys
  · obtain ⟨front, u, back, rfl, hfront⟩ := exists_place h
    rw [remove_place hfront, get?_place hfront, erase_place hfront (notMem_keys_of_nodup hnodup).2]
  · rw [remove_absent h, (get?_eq_none_iff es key).mpr h, erase_absent h]

/-! ## Edits -/

/-- An edit of entries: a value written at a key, a key taken out, or the value at a key changed in
place. -/
inductive Edit (α : Type) where
  | insert (key : String) (value : α)
  | erase (key : String)
  | modify (key : String) (f : α → α)

namespace Edit

/-- The key that an edit is about. -/
def key : Edit α → String
  | insert key _ | erase key | modify key _ => key

/-- What an edit replies, the value that it finds at its key, and the entries after it. -/
def apply : Edit α → Entries α → Option α × Entries α
  | insert key value, es => es.put key value
  | erase key, es => es.remove key
  | modify key f, es => (es.get? key, es.modify f key)

/-- What an edit leaves in the place of the value that it finds. -/
def instead : Edit α → α → Entries α
  | insert key value, _ => [(key, value)]
  | erase _, _ => []
  | modify key f, u => [(key, f u)]

/-- What an edit puts at the end if it does not find its key. -/
def fresh : Edit α → Entries α
  | insert key value => [(key, value)]
  | erase _ | modify _ _ => []

/-- An edit of a key that is there replies its value and changes nothing but its place. -/
theorem apply_present {front back : Entries α} {u : α} (e : Edit α)
    (hnodup : (keys (front ++ (e.key, u) :: back)).Nodup) :
    e.apply (front ++ (e.key, u) :: back) = (some u, front ++ e.instead u ++ back) := by
  have hfront : e.key ∉ front.keys := (notMem_keys_of_nodup hnodup).1
  cases e with
  | insert key value =>
    simp only [apply, instead, Edit.key] at hfront ⊢
    rw [put_place hfront, List.append_assoc, List.singleton_append]
  | erase key =>
    simp only [apply, instead, Edit.key] at hfront ⊢
    rw [remove_place hfront, List.append_nil]
  | modify key f =>
    simp only [apply, instead, Edit.key] at hfront ⊢
    rw [get?_place hfront, modify_place hfront, List.append_assoc, List.singleton_append]

/-- An edit of a key that is not there replies nothing; only an insertion changes anything, and
only at the end. -/
theorem apply_absent {es : Entries α} (e : Edit α) (habsent : e.key ∉ es.keys) :
    e.apply es = (none, es ++ e.fresh) := by
  cases e with
  | insert key value => exact put_absent habsent value
  | erase key => exact (remove_absent habsent).trans (by rw [fresh, List.append_nil])
  | modify key f =>
    have hnone : es.get? key = none := (get?_eq_none_iff es key).mpr habsent
    exact Prod.ext hnone ((modify_absent habsent f).trans (List.append_nil es).symm)

/-- What an edit does to the look-up of its key. -/
def onKey : Edit α → Option α → Option α
  | insert _ value, _ => some value
  | erase _, _ => none
  | modify _ f, old => old.map f

theorem get?_apply (e : Edit α) {es : Entries α} (hnodup : es.keys.Nodup) (k : String) :
    (e.apply es).2.get? k = if k = e.key then e.onKey (es.get? k) else es.get? k := by
  cases e with
  | insert key value =>
    rw [apply, put_eq]
    exact get?_insert es key value k
  | erase key =>
    rw [apply, remove_eq hnodup]
    exact get?_erase es key k
  | modify key f => exact get?_modify f es key k

end Edit

/-- The entries after edits, one after the other. -/
def after (es : Entries α) (edits : List (Edit α)) : Entries α :=
  edits.foldl (fun es e => (e.apply es).2) es

theorem after_concat (es : Entries α) (edits : List (Edit α)) (e : Edit α) :
    es.after (edits ++ [e]) = (e.apply (es.after edits)).2 := by
  simp [after]

/-- The whole history of entries that were built from pairs and then edited. -/
def history (pairs : List (String × α)) (edits : List (Edit α)) : List (Edit α) :=
  pairs.map (fun p => .insert p.1 p.2) ++ edits

theorem after_ofList (pairs : List (String × α)) (edits : List (Edit α)) :
    (ofList pairs).after edits = after [] (history pairs edits) := by
  simp only [after, history, ofList, List.foldl_append, List.foldl_map, Edit.apply, put_eq]

/-! ## What a history decides -/

section History

variable {h : List (Edit α)} {e : Edit α} {k : String} {v : α} {n : Nat}

/-- An insertion of the key has no removal of it behind it. -/
def Present (h : List (Edit α)) (k : String) : Prop :=
  ∃ before v rest, h = before ++ .insert k v :: rest ∧ Edit.erase k ∉ rest

/-- The value that the last edit of a key has left there: what was inserted, or what a change has
made of the value from before. -/
inductive Last (k : String) : List (Edit α) → α → Prop where
  | insert (before : List (Edit α)) (v : α) (rest : List (Edit α)) (hrest : ∀ e ∈ rest, e.key ≠ k) :
      Last k (before ++ .insert k v :: rest) v
  | modify (before : List (Edit α)) (f : α → α) (v : α) (rest : List (Edit α))
      (hbefore : Last k before v) (hrest : ∀ e ∈ rest, e.key ≠ k) :
      Last k (before ++ .modify k f :: rest) (f v)

/-- A key that is there came with the edit at this place: its first insertion since its last
removal. -/
def Born (h : List (Edit α)) (k : String) (n : Nat) : Prop :=
  ∃ before v rest, h = before ++ .insert k v :: rest ∧ n = before.length ∧
    ¬ Present before k ∧ Edit.erase k ∉ rest

/-- A member of a list with one more element at its end is the new element or an old one. -/
theorem concat_eq_split_iff {β : Type} {h before rest : List β} {e x : β} :
    h ++ [e] = before ++ x :: rest ↔
      (h = before ∧ e = x ∧ rest = []) ∨
        ∃ rest', rest = rest' ++ [e] ∧ h = before ++ x :: rest' := by
  rcases List.eq_nil_or_concat' rest with rfl | ⟨rest', y, rfl⟩
  · simp
  · constructor
    · intro heq
      rw [← List.cons_append, ← List.append_assoc] at heq
      obtain ⟨rfl, hy⟩ := List.append_inj' heq rfl
      obtain rfl : e = y := by simpa using hy
      exact .inr ⟨rest', rfl, rfl⟩
    · rintro (⟨-, -, hnil⟩ | ⟨rest'', heq, rfl⟩)
      · simp at hnil
      · rw [heq]; simp

theorem present_concat_iff :
    Present (h ++ [e]) k ↔ (∃ v, e = .insert k v) ∨ (Present h k ∧ e ≠ .erase k) := by
  constructor
  · rintro ⟨before, v, rest, heq, hrest⟩
    rcases concat_eq_split_iff.mp heq with ⟨-, rfl, -⟩ | ⟨rest', rfl, rfl⟩
    · exact .inl ⟨v, rfl⟩
    · simp only [List.mem_append, List.mem_singleton, not_or] at hrest
      exact .inr ⟨⟨before, v, rest', rfl, hrest.1⟩, Ne.symm hrest.2⟩
  · rintro (⟨v, rfl⟩ | ⟨⟨before, v, rest, rfl, hrest⟩, he⟩)
    · exact ⟨h, v, [], rfl, List.not_mem_nil⟩
    · exact ⟨before, v, rest ++ [e], by simp, by simp [hrest, Ne.symm he]⟩

theorem born_concat_iff :
    Born (h ++ [e]) k n ↔
      (n = h.length ∧ (∃ v, e = .insert k v) ∧ ¬ Present h k) ∨ (Born h k n ∧ e ≠ .erase k) := by
  constructor
  · rintro ⟨before, v, rest, heq, rfl, hbefore, hrest⟩
    rcases concat_eq_split_iff.mp heq with ⟨rfl, rfl, -⟩ | ⟨rest', rfl, rfl⟩
    · exact .inl ⟨rfl, ⟨v, rfl⟩, hbefore⟩
    · simp only [List.mem_append, List.mem_singleton, not_or] at hrest
      exact .inr ⟨⟨before, v, rest', rfl, rfl, hbefore, hrest.1⟩, Ne.symm hrest.2⟩
  · rintro (⟨rfl, ⟨v, rfl⟩, hbefore⟩ | ⟨⟨before, v, rest, rfl, rfl, hbefore, hrest⟩, he⟩)
    · exact ⟨h, v, [], rfl, rfl, hbefore, List.not_mem_nil⟩
    · exact ⟨before, v, rest ++ [e], by simp, rfl, hbefore, by simp [hrest, Ne.symm he]⟩

theorem Born.lt_length (hborn : Born h k n) : n < h.length := by
  obtain ⟨before, v, rest, rfl, rfl, -, -⟩ := hborn
  simp

/-- A key is there iff it came at some place. -/
theorem present_iff_born : Present h k ↔ ∃ n, Born h k n := by
  induction h using List.reverseRecOn with
  | nil => simp [Present, Born]
  | append_singleton h e ih =>
    simp only [present_concat_iff, born_concat_iff, exists_or, exists_and_right, ← ih]
    by_cases hp : Present h k
    · simp only [hp, not_true_eq_false, and_false, true_and, false_or, or_iff_right_iff_imp]
      rintro ⟨v, rfl⟩
      simp
    · simp [hp]

theorem Born.present (hborn : Born h k n) : Present h k :=
  present_iff_born.mpr ⟨n, hborn⟩

/-- A key came at one place only. -/
theorem Born.unique {m : Nat} (hn : Born h k n) (hm : Born h k m) : n = m := by
  induction h using List.reverseRecOn with
  | nil => simp [Born] at hn
  | append_singleton h e ih =>
    rcases born_concat_iff.mp hn with ⟨rfl, -, hnew⟩ | ⟨hn, -⟩ <;>
      rcases born_concat_iff.mp hm with ⟨rfl, -, hnew'⟩ | ⟨hm, -⟩
    · rfl
    · exact absurd hm.present hnew
    · exact absurd hn.present hnew'
    · exact ih hn hm

/-- An edit of another key leaves the last value of a key. -/
theorem last_concat_of_ne (he : e.key ≠ k) : Last k (h ++ [e]) v ↔ Last k h v := by
  constructor
  · generalize hg : h ++ [e] = g
    rintro (⟨before, v, rest, hrest⟩ | ⟨before, f, v, rest, hbefore, hrest⟩)
    · rcases concat_eq_split_iff.mp hg with ⟨-, rfl, -⟩ | ⟨rest', rfl, rfl⟩
      · exact absurd rfl he
      · exact .insert before v rest' fun x hx => hrest x (List.mem_append_left _ hx)
    · rcases concat_eq_split_iff.mp hg with ⟨-, rfl, -⟩ | ⟨rest', rfl, rfl⟩
      · exact absurd rfl he
      · exact .modify before f v rest' hbefore fun x hx => hrest x (List.mem_append_left _ hx)
  · rintro (⟨before, v, rest, hrest⟩ | ⟨before, f, v, rest, hbefore, hrest⟩)
    · rw [List.append_assoc]
      exact .insert before v (rest ++ [e])
        (List.forall_mem_append.mpr ⟨hrest, List.forall_mem_singleton.mpr he⟩)
    · rw [List.append_assoc]
      exact .modify before f v (rest ++ [e]) hbefore
        (List.forall_mem_append.mpr ⟨hrest, List.forall_mem_singleton.mpr he⟩)

theorem last_concat_self_iff :
    Last e.key (h ++ [e]) v ↔
      e = .insert e.key v ∨ ∃ f u, e = .modify e.key f ∧ Last e.key h u ∧ f u = v := by
  constructor
  · generalize hg : h ++ [e] = g
    generalize hk : e.key = k
    rintro (⟨before, v, rest, hrest⟩ | ⟨before, f, v, rest, hbefore, hrest⟩)
    · rcases concat_eq_split_iff.mp hg with ⟨-, rfl, -⟩ | ⟨rest', rfl, -⟩
      · exact .inl rfl
      · exact absurd hk (hrest e (by simp))
    · rcases concat_eq_split_iff.mp hg with ⟨rfl, rfl, -⟩ | ⟨rest', rfl, -⟩
      · exact .inr ⟨f, v, rfl, hbefore, rfl⟩
      · exact absurd hk (hrest e (by simp))
  · rintro (he | ⟨f, u, he, hu, rfl⟩)
    · generalize e.key = k at he ⊢
      subst he
      exact .insert h v [] (by simp)
    · generalize e.key = k at he hu ⊢
      subst he
      exact .modify h f u [] hu (by simp)

/-- The last edit of a key, if it is the last of all, works on the last value from before. -/
theorem onKey_eq_some_iff {old : Option α} (hold : ∀ u, old = some u ↔ Last e.key h u) :
    e.onKey old = some v ↔ Last e.key (h ++ [e]) v := by
  rw [last_concat_self_iff]
  cases e with
  | insert key value => simp [Edit.onKey, Edit.key]
  | erase key => simp [Edit.onKey, Edit.key]
  | modify key f =>
    simp only [Edit.onKey, Edit.key, Option.map_eq_some_iff, hold, reduceCtorEq, false_or,
      Edit.modify.injEq, true_and]
    constructor
    · rintro ⟨u, hu, rfl⟩
      exact ⟨f, u, rfl, hu, rfl⟩
    · rintro ⟨_, u, rfl, hu, rfl⟩
      exact ⟨u, hu, rfl⟩

end History

/-! ## Entries and their history -/

/-- Entries are what a history decides: a key that is there is there once and holds its last value,
and the keys stand in the order in which they came. -/
structure Recalls (h : List (Edit α)) (es : Entries α) : Prop where
  distinct : es.keys.Nodup
  value : ∀ k v, es.get? k = some v ↔ Last k h v
  absent : ∀ k, es.get? k = none ↔ ¬ Present h k
  present : ∀ k, k ∈ es.keys ↔ Present h k
  order : es.keys.Pairwise fun a b => ∃ i j, Born h a i ∧ Born h b j ∧ i < j

namespace Recalls

variable {h : List (Edit α)} {es : Entries α}

protected theorem nil : Recalls ([] : List (Edit α)) [] where
  distinct := List.nodup_nil
  value k v := by
    constructor
    · intro h
      simp [get?] at h
    · generalize hg : ([] : List (Edit α)) = g
      rintro (_ | _) <;> simp at hg
  absent k := by simp [get?, Present]
  present k := by simp [keys, Present]
  order := List.Pairwise.nil

theorem distinct_concat (hr : Recalls h es) (e : Edit α) : (e.apply es).2.keys.Nodup := by
  cases e with
  | insert key value =>
    simp only [Edit.apply, put_eq]
    exact nodup_keys_insert hr.distinct key value
  | erase key =>
    simp only [Edit.apply, remove_eq hr.distinct, keys_erase]
    exact hr.distinct.filter _
  | modify key f =>
    simp only [Edit.apply, keys_modify]
    exact hr.distinct

theorem value_concat (hr : Recalls h es) (e : Edit α) (k : String) (v : α) :
    (e.apply es).2.get? k = some v ↔ Last k (h ++ [e]) v := by
  rw [Edit.get?_apply e hr.distinct]
  split
  next hk =>
    subst hk
    exact onKey_eq_some_iff (hr.value e.key)
  next hk =>
    rw [last_concat_of_ne (Ne.symm hk)]
    exact hr.value k v

theorem absent_concat (hr : Recalls h es) (e : Edit α) (k : String) :
    (e.apply es).2.get? k = none ↔ ¬ Present (h ++ [e]) k := by
  rw [Edit.get?_apply e hr.distinct, present_concat_iff]
  split
  next hk =>
    subst hk
    cases e with
    | insert key value => simp [Edit.onKey, Edit.key]
    | erase key => simp [Edit.onKey, Edit.key]
    | modify key f => simp [Edit.onKey, Edit.key, hr.absent]
  next hk =>
    have hother : ¬ (∃ v, e = .insert k v) ∧ e ≠ .erase k := by
      refine ⟨?_, ?_⟩
      · rintro ⟨v, rfl⟩
        exact hk rfl
      · rintro rfl
        exact hk rfl
    simp only [hother, false_or, ne_eq, not_false_eq_true, and_true, hr.absent]

/-- The keys that are left stand as they stood, and a new one stands behind all of them. -/
theorem order_concat (hr : Recalls h es) (e : Edit α) :
    (e.apply es).2.keys.Pairwise fun a b =>
      ∃ i j, Born (h ++ [e]) a i ∧ Born (h ++ [e]) b j ∧ i < j := by
  have kept {a b : String} (ha : e ≠ .erase a) (hb : e ≠ .erase b)
      (hab : ∃ i j, Born h a i ∧ Born h b j ∧ i < j) :
      ∃ i j, Born (h ++ [e]) a i ∧ Born (h ++ [e]) b j ∧ i < j := by
    obtain ⟨i, j, hi, hj, hlt⟩ := hab
    exact ⟨i, j, born_concat_iff.mpr (.inr ⟨hi, ha⟩), born_concat_iff.mpr (.inr ⟨hj, hb⟩), hlt⟩
  cases e with
  | insert key value =>
    have hold := hr.order.imp fun hab => kept (by simp) (by simp) hab
    simp only [Edit.apply, put_eq, keys_insert]
    split
    next => exact hold
    next hnew =>
      refine List.pairwise_append.mpr ⟨hold, List.pairwise_singleton _ _, fun a ha b hb => ?_⟩
      obtain rfl := List.mem_singleton.mp hb
      obtain ⟨i, hi⟩ := present_iff_born.mp ((hr.present a).mp ha)
      have hb : Born (h ++ [.insert b value]) b h.length :=
        born_concat_iff.mpr (.inl ⟨rfl, ⟨value, rfl⟩, fun hp => hnew ((hr.present b).mpr hp)⟩)
      exact ⟨i, h.length, born_concat_iff.mpr (.inr ⟨hi, by simp⟩), hb, hi.lt_length⟩
  | erase key =>
    simp only [Edit.apply, remove_eq hr.distinct, keys_erase]
    refine (hr.order.filter _).imp_of_mem fun {a b} ha hb hab => ?_
    have ha : key ≠ a := Ne.symm (by simpa using (List.mem_filter.mp ha).2)
    have hb : key ≠ b := Ne.symm (by simpa using (List.mem_filter.mp hb).2)
    exact kept (by simpa using ha) (by simpa using hb) hab
  | modify key f =>
    simp only [Edit.apply, keys_modify]
    exact hr.order.imp fun hab => kept (by simp) (by simp) hab

/-- One more edit at the end of the history. -/
protected theorem concat (hr : Recalls h es) (e : Edit α) : Recalls (h ++ [e]) (e.apply es).2 where
  distinct := hr.distinct_concat e
  value := hr.value_concat e
  absent := hr.absent_concat e
  present k := by rw [← not_iff_not, ← get?_eq_none_iff, hr.absent_concat e]
  order := hr.order_concat e

end Recalls

/-- Entries after any edits are what the history of the edits decides. -/
theorem recalls_after (h : List (Edit α)) : Recalls h (after [] h) := by
  induction h using List.reverseRecOn with
  | nil => exact Recalls.nil
  | append_singleton h e ih =>
    rw [after_concat]
    exact ih.concat e

theorem recalls_built (pairs : List (String × α)) (edits : List (Edit α)) :
    Recalls (history pairs edits) ((ofList pairs).after edits) := by
  rw [after_ofList]
  exact recalls_after (history pairs edits)

example : (ofList [("a", 1), ("b", 2)]).after [.erase "a", .insert "b" 3, .insert "a" 4] =
    [("b", 3), ("a", 4)] := by decide

end Entries

/-! ## Records -/

namespace Value

theorem sameEntries_iff (es fs : List (String × Value)) :
    sameEntries es fs = true ↔ List.Forall₂ (fun e f => e.1 = f.1 ∧ e.2.same f.2) es fs := by
  induction es generalizing fs with
  | nil => cases fs <;> simp [sameEntries]
  | cons e es ih =>
    cases fs with
    | nil => simp [sameEntries]
    | cons f fs => simp [sameEntries, ih]

/-- Records are the same iff their entries are, key by key and value by value, in order. -/
theorem same_record_iff (es fs : List (String × Value)) :
    (record es).same (.record fs) = true ↔
      List.Forall₂ (fun e f => e.1 = f.1 ∧ e.2.same f.2) es fs := by
  rw [same, sameEntries_iff]

end Value

namespace Entries

/-- The entries of a record, however it was built and edited, are what its history decides; one
more edit replies the value that it finds at its key and changes nothing but its place, or puts a
new key at the end; and two such records are the same iff their entries are, in order. -/
theorem ordered_of_edits (pairs : List (String × Value)) (edits : List (Edit Value)) :
    Recalls (history pairs edits) ((ofList pairs).after edits) ∧
      (∀ e : Edit Value,
        (∀ front u back, (ofList pairs).after edits = front ++ (e.key, u) :: back →
          e.apply ((ofList pairs).after edits) = (some u, front ++ e.instead u ++ back)) ∧
        (e.key ∉ ((ofList pairs).after edits).keys →
          e.apply ((ofList pairs).after edits) = (none, (ofList pairs).after edits ++ e.fresh))) ∧
      ∀ (pairs' : List (String × Value)) (edits' : List (Edit Value)),
        (Value.record ((ofList pairs).after edits)).same (.record ((ofList pairs').after edits')) =
            true ↔
          List.Forall₂ (fun e f => e.1 = f.1 ∧ e.2.same f.2) ((ofList pairs).after edits)
            ((ofList pairs').after edits') := by
  have hr := recalls_built pairs edits
  refine ⟨hr, fun e => ⟨fun front u back hes => ?_, e.apply_absent⟩,
    fun pairs' edits' => Value.same_record_iff _ _⟩
  have hnodup := hr.distinct
  rw [hes] at hnodup ⊢
  exact e.apply_present hnodup

end Entries

end ReactiveView
