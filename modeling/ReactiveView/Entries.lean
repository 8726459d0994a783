/-!
# Entries in order

A map kept as the list of its entries, in the order in which the keys came. Writing to a key that
is there keeps its place; a new key goes to the end. Records, attributes, methods and named scopes
are kept this way, so enumeration never depends on anything but history.

Records reply to their owner: `put` and `remove` look for the first entry with the key, change the
entries at that place only, and reply the value that was there. Attributes reply nothing, and one
that is taken out is taken out wherever it stands (`erase`).

Results:
* `get?_insert`: what `insert` does to every look-up;
* `keys_insert`, `nodup_keys_insert`: what it does to the order of keys, which stay distinct;
* `get?_erase`, `keys_erase`: the same for `erase`.
-/
namespace ReactiveView

/-- A map from names to `α`, in the order of its keys. -/
abbrev Entries (α : Type) := List (String × α)

namespace Entries

variable {α : Type}

/-- The value at a key. -/
def get? : Entries α → String → Option α
  | [], _ => none
  | (k, v) :: rest, key => if k = key then some v else get? rest key

/-- Whether a key is there. -/
def has (es : Entries α) (key : String) : Bool := (es.get? key).isSome

/-- The keys in order. -/
def keys (es : Entries α) : List String := es.map (·.1)

/-- The values in order. -/
def values (es : Entries α) : List α := es.map (·.2)

/-- The entries with a value written at a key: in place if the key is there, else at the end. -/
def insert : Entries α → String → α → Entries α
  | [], key, value => [(key, value)]
  | (k, v) :: rest, key, value =>
    if k = key then (k, value) :: rest else (k, v) :: insert rest key value

/-- The entries with the value at a key changed; nothing happens if the key is not there. -/
def modify (f : α → α) : Entries α → String → Entries α
  | [], _ => []
  | (k, v) :: rest, key => if k = key then (k, f v) :: rest else (k, v) :: modify f rest key

/-- The entries without a key. -/
def erase (es : Entries α) (key : String) : Entries α := es.filter (·.1 ≠ key)

/-- The place of a key: that of the first entry with it. -/
def position (es : Entries α) (key : String) : Option Nat := es.findIdx? (·.1 = key)

/-- A value written at a key: the value that it replaces, if any, and the entries after it. -/
def put (es : Entries α) (key : String) (value : α) : Option α × Entries α :=
  match es.position key with
  | some i => (es[i]?.map (·.2), List.modify es i fun e => (e.1, value))
  | none => (none, es ++ [(key, value)])

/-- A key taken out: the value that it had, if any, and the entries after it. -/
def remove (es : Entries α) (key : String) : Option α × Entries α :=
  match es.position key with
  | some i => (es[i]?.map (·.2), es.eraseIdx i)
  | none => (none, es)

/-- The entries that result from writing pairs one after the other. -/
def ofList (pairs : List (String × α)) : Entries α :=
  pairs.foldl (fun es p => es.insert p.1 p.2) []

/-- The pairs whose keys have not come before. -/
def firsts : List (String × α) → Entries α
  | [] => []
  | (k, v) :: rest => (k, v) :: (firsts rest).erase k

theorem get?_insert (es : Entries α) (key : String) (value : α) (k : String) :
    (es.insert key value).get? k = if k = key then some value else es.get? k := by
  induction es with
  | nil => simp [insert, get?, eq_comm]
  | cons e es ih =>
    obtain ⟨k', v⟩ := e
    simp only [insert]
    split
    next h =>
      subst h
      by_cases h' : k' = k
      · simp [get?, h']
      · simp [get?, h', Ne.symm h']
    next h =>
      simp only [get?, ih]
      by_cases h' : k' = k
      · subst h'; simp [h]
      · simp [h']

theorem get?_eq_none_iff (es : Entries α) (key : String) : es.get? key = none ↔ key ∉ es.keys := by
  induction es with
  | nil => simp [get?, keys]
  | cons e es ih =>
    obtain ⟨k, v⟩ := e
    simp only [get?, keys, List.map_cons, List.mem_cons, not_or]
    split
    next h => simp [h]
    next h => simpa [keys, Ne.symm h, eq_comm, h] using ih

theorem keys_insert (es : Entries α) (key : String) (value : α) :
    (es.insert key value).keys = if key ∈ es.keys then es.keys else es.keys ++ [key] := by
  induction es with
  | nil => simp [insert, keys]
  | cons e es ih =>
    obtain ⟨k, v⟩ := e
    simp only [insert]
    split
    next h => simp [keys, h]
    next h =>
      simp only [keys, List.map_cons, List.mem_cons, Ne.symm h, false_or] at ih ⊢
      rw [ih]
      split <;> simp_all

theorem nodup_keys_insert {es : Entries α} (h : es.keys.Nodup) (key : String) (value : α) :
    (es.insert key value).keys.Nodup := by
  rw [keys_insert]
  split
  · exact h
  · rw [List.nodup_append]
    refine ⟨h, by simp, ?_⟩
    simp only [List.mem_singleton, forall_eq]
    intro a ha heq
    exact absurd (heq ▸ ha) ‹_›

theorem get?_erase (es : Entries α) (key k : String) :
    (es.erase key).get? k = if k = key then none else es.get? k := by
  induction es with
  | nil => simp [erase, get?]
  | cons e es ih =>
    obtain ⟨k', v⟩ := e
    simp only [erase, ne_eq, decide_not, List.filter_cons, get?] at ih ⊢
    by_cases h : k' = key
    · subst h
      by_cases hk : k = k'
      · subst hk; simpa using ih
      · simpa [hk, Ne.symm hk, eq_comm] using ih
    · by_cases hk : k' = k
      · subst hk; simp [h, get?]
      · simp [h, get?, hk, ih]

theorem keys_erase (es : Entries α) (key : String) :
    (es.erase key).keys = es.keys.filter (· ≠ key) := by
  simp [erase, keys, List.filter_map, Function.comp_def]

theorem nodup_keys_firsts (pairs : List (String × α)) : (firsts pairs).keys.Nodup := by
  induction pairs with
  | nil => simp [firsts, keys]
  | cons p pairs ih =>
    obtain ⟨k, v⟩ := p
    have h := keys_erase (firsts pairs) k
    simp only [keys] at h ih
    simp only [firsts, keys, List.map_cons, List.nodup_cons, h]
    exact ⟨by simp, ih.filter _⟩

end Entries

end ReactiveView
