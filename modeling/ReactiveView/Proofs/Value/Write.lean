import ReactiveView.Value.Outline
/-!
# Writes to plain data

A list takes a field for an index if its name is a numeral, however it is spelled, while a record
and the observable graph go by the name itself. So one element can have several keys, unless every
numeral is spelled the canonical way: then the data is `isPlain`, and members with different keys
are different members.

Results:
* `isPlain_set`: plain writes keep data plain.
* `field?_set`, `field?_of_set`: a write below the root keeps the names at the top, and adds no
  other one than the name it is for.
-/
namespace ReactiveView

/-- Whether a name that denotes an index is the canonical numeral of it. -/
def Segment.isPlain : Segment → Bool
  | .field name => (Text.indexOf? name).all fun n => name == String.ofList (Text.decimal n)
  | .index _ => true

namespace Path

/-- Whether every name that denotes an index is the canonical numeral of it. -/
def isPlain (p : Path) : Bool := p.all Segment.isPlain

/-- The keys of the segments. -/
def keys (p : Path) : List String := p.map Segment.key

/-- Two paths that part: after steps with the same keys come steps with different ones. -/
def Apart : Path → Path → Prop
  | s :: p, t :: q => s.key ≠ t.key ∨ Apart p q
  | _, _ => False

/-- Of two paths that do not part, one has the keys of the other and perhaps more. -/
theorem prefix_of_not_apart {p q : Path} (h : ¬Apart p q) :
    p.keys <+: q.keys ∨ q.keys <+: p.keys := by
  induction p generalizing q with
  | nil => exact .inl List.nil_prefix
  | cons s p ih =>
    cases q with
    | nil => exact .inr List.nil_prefix
    | cons t q =>
      obtain ⟨hkey, hrest⟩ := not_or.mp h
      have hkey : s.key = t.key := Decidable.not_not.mp hkey
      simpa [keys, hkey] using ih hrest

theorem isPlain_cons {s : Segment} {p : Path} :
    Path.isPlain (s :: p) ↔ s.isPlain ∧ Path.isPlain p := by
  simp [isPlain]

theorem isPlain_append {p q : Path} :
    Path.isPlain (p ++ q) ↔ Path.isPlain p ∧ Path.isPlain q := by
  simp [isPlain]

end Path

namespace Value

mutual

/-- Whether every key that denotes an index is the canonical numeral of it, at every level. -/
def isPlain : Value → Bool
  | .list items => arePlain items
  | .record entries => arePlainEntries entries
  | _ => true

/-- The same for the items of a list. -/
def arePlain : List Value → Bool
  | [] => true
  | v :: rest => isPlain v && arePlain rest

/-- The same for the entries of a record. -/
def arePlainEntries : List (String × Value) → Bool
  | [] => true
  | (k, v) :: rest => Segment.isPlain (.field k) && isPlain v && arePlainEntries rest

end

/-! ## Plain segments -/

theorem ofList_decimal_inj {m n : Nat}
    (h : String.ofList (Text.decimal m) = String.ofList (Text.decimal n)) : m = n := by
  have h' : Text.decimal m = Text.decimal n := by
    have := congrArg String.toList h
    rwa [String.toList_ofList, String.toList_ofList] at this
  have hv := congrArg (Text.digitsValue 10 0) h'
  rw [Text.digitsValue_decimal, Text.digitsValue_decimal] at hv
  exact Option.some.inj hv

/-- A plain segment that stands for an element of a list has the element's numeral as its key. -/
theorem key_of_element? {s : Segment} {n : Nat} (hs : s.isPlain) (h : s.element? = some n) :
    s.key = String.ofList (Text.decimal n) := by
  cases s with
  | field name =>
    simp only [Segment.isPlain, Segment.element?] at hs h
    rw [h] at hs
    exact eq_of_beq hs
  | index m =>
    cases h
    rfl

/-! ## Whole writes -/

variable {v v' w old x : Value} {s t : Segment} {before : Path}

/-- A write goes on from a member that is there. -/
theorem setFrom_cons {rest : Path} (hrest : rest ≠ []) (hw : v.member? s = some w) :
    v.setFrom before (s :: rest) x = (w.setFrom (before ++ [s]) rest x).map fun r =>
      (r.1, v.replace s r.2) := by
  obtain ⟨t, rest, rfl⟩ := List.exists_cons_of_ne_nil hrest
  rw [setFrom, hw]
  · simp only
    cases w.setFrom (before ++ [s]) (t :: rest) x <;> rfl
  · simp

/-- It does not go on from one that is not. -/
theorem setFrom_cons_of_none {rest : Path} (hrest : rest ≠ []) (hs : v.member? s = none) :
    v.setFrom before (s :: rest) x = .error (.pathNotFound (Path.text (before ++ [s]))) := by
  obtain ⟨t, rest, rfl⟩ := List.exists_cons_of_ne_nil hrest
  rw [setFrom, hs]
  simp

theorem setFrom_cons_cons {s' : Segment} {rest : Path}
    (h : v.setFrom before (s :: s' :: rest) x = .ok (old, v')) :
    ∃ next next', v.member? s = some next ∧
      next.setFrom (before ++ [s]) (s' :: rest) x = .ok (old, next') ∧ v' = v.replace s next' := by
  cases hnext : v.member? s with
  | none =>
    rw [setFrom_cons_of_none (List.cons_ne_nil _ _) hnext] at h
    cases h
  | some next =>
    rw [setFrom_cons (List.cons_ne_nil _ _) hnext] at h
    obtain ⟨⟨o, next'⟩, hset, hr⟩ := map_eq_ok h
    cases hr
    exact ⟨next, next', rfl, hset, rfl⟩

/-! ## Writes keep data plain -/

theorem numeral_mono {base limit limit' m : Nat} {cs : List Char}
    (h : Text.numeral base limit cs = some m) (hm : m < limit') :
    Text.numeral base limit' cs = some m := by
  have key : ∀ ds : List Char,
      (if ds.isEmpty then none else (Text.digitsValue base 0 ds).filter (· < limit)) = some m →
      (if ds.isEmpty then none else (Text.digitsValue base 0 ds).filter (· < limit')) = some m := by
    intro ds hds
    split at hds
    · cases hds
    · next hne =>
      obtain ⟨hvalue, -⟩ := Option.filter_eq_some_iff.mp hds
      rw [if_neg hne]
      exact Option.filter_eq_some_iff.mpr ⟨hvalue, by simpa using hm⟩
  exact key _ h

theorem isPlain_key_index (n : Nat) : Segment.isPlain (.field (Segment.key (.index n))) := by
  simp only [Segment.isPlain, Segment.key, Text.indexOf?, String.toList_ofList]
  cases h : Text.numeral 10 Text.indexLimit (Text.decimal n) with
  | none => rfl
  | some m =>
    have hlt : m < max (m + 1) (n + 1) := by omega
    have hm := numeral_mono h hlt
    rw [Text.numeral_decimal (by omega : n < max (m + 1) (n + 1))] at hm
    simp [Option.some.inj hm]

theorem isPlain_key (hs : s.isPlain) : Segment.isPlain (.field s.key) := by
  cases s with
  | field name => exact hs
  | index n => exact isPlain_key_index n

/-- A segment with the key of a plain one is plain. -/
theorem isPlain_of_key_eq {t : Segment} (h : t.key = s.key) (hs : s.isPlain) : t.isPlain := by
  cases t with
  | field name =>
    obtain rfl : name = s.key := h
    exact isPlain_key hs
  | index n => rfl

/-- A path with the keys of a plain one is plain. -/
theorem isPlain_of_keys_eq {p q : Path} (h : p.keys = q.keys) (hq : q.isPlain) : p.isPlain := by
  induction p generalizing q with
  | nil => rfl
  | cons s p ih =>
    cases q with
    | nil => cases h
    | cons t q =>
      obtain ⟨hkey, hkeys⟩ := List.cons.inj h
      obtain ⟨ht, hq⟩ := Path.isPlain_cons.mp hq
      exact Path.isPlain_cons.mpr ⟨isPlain_of_key_eq hkey ht, ih hkeys hq⟩

theorem arePlain_iff {items : List Value} : arePlain items ↔ ∀ w ∈ items, isPlain w := by
  induction items with
  | nil => simp [arePlain]
  | cons v rest ih => simp [arePlain, ih]

theorem arePlainEntries_iff {entries : List (String × Value)} : arePlainEntries entries ↔
    ∀ e ∈ entries, Segment.isPlain (.field e.1) ∧ isPlain e.2 := by
  induction entries with
  | nil => simp [arePlainEntries]
  | cons e rest ih => simp [arePlainEntries, ih]

theorem mem_of_get? {α : Type} {es : Entries α} {key : String} {a : α}
    (h : es.get? key = some a) : (key, a) ∈ es := by
  induction es with
  | nil => cases h
  | cons e rest ih =>
    simp only [Entries.get?] at h
    split at h
    · next hk => cases h; rw [← hk]; exact List.mem_cons_self
    · exact List.mem_cons_of_mem _ (ih h)

theorem mem_insert {α : Type} {es : Entries α} {key : String} {a : α} {e : String × α}
    (h : e ∈ es.insert key a) : e ∈ es ∨ e = (key, a) := by
  induction es with
  | nil => exact .inr (List.mem_singleton.mp h)
  | cons d rest ih =>
    simp only [Entries.insert] at h
    split at h
    · next hk =>
      rcases List.mem_cons.mp h with rfl | h
      · exact .inr (by rw [hk])
      · exact .inl (List.mem_cons_of_mem _ h)
    · rcases List.mem_cons.mp h with rfl | h
      · exact .inl List.mem_cons_self
      · exact (ih h).imp_left (List.mem_cons_of_mem _)

theorem isPlain_member? (hv : v.isPlain) {w : Value} (h : v.member? s = some w) : w.isPlain := by
  cases v with
  | record entries =>
    exact (arePlainEntries_iff.mp hv _ (mem_of_get? h)).2
  | list items =>
    obtain ⟨n, -, hn⟩ := Option.bind_eq_some_iff.mp h
    exact arePlain_iff.mp hv w (List.mem_of_getElem? hn)
  | null => cases h
  | bool b => cases h
  | number n => cases h
  | text s => cases h

theorem isPlain_at? (hv : v.isPlain) {p : Path} {w : Value} (h : v.at? p = some w) :
    w.isPlain := by
  induction p generalizing v with
  | nil => cases h; exact hv
  | cons s p ih =>
    obtain ⟨u, hu, hw⟩ := Option.bind_eq_some_iff.mp h
    exact ih (isPlain_member? hv hu) hw

theorem isPlain_record_insert {entries : List (String × Value)} {key : String}
    (hv : (Value.record entries).isPlain) (hkey : Segment.isPlain (.field key)) (hx : x.isPlain) :
    (Value.record (Entries.insert entries key x)).isPlain := by
  refine arePlainEntries_iff.mpr fun e he => ?_
  rcases mem_insert he with he | rfl
  · exact arePlainEntries_iff.mp hv e he
  · exact ⟨hkey, hx⟩

theorem isPlain_list_set {items : List Value} {n : Nat} (hv : (Value.list items).isPlain)
    (hx : x.isPlain) : (Value.list (items.set n x)).isPlain := by
  refine arePlain_iff.mpr fun w hw => ?_
  rcases List.mem_or_eq_of_mem_set hw with hw | rfl
  · exact arePlain_iff.mp hv w hw
  · exact hx

theorem isPlain_replace (hv : v.isPlain) (hs : s.isPlain) (hx : x.isPlain) :
    (v.replace s x).isPlain := by
  cases v with
  | record entries => exact isPlain_record_insert hv (isPlain_key hs) hx
  | list items =>
    simp only [replace]
    split
    · exact isPlain_list_set hv hx
    · exact hv
  | null => exact hv
  | bool b => exact hv
  | number n => exact hv
  | text s => exact hv

theorem isPlain_put (hv : v.isPlain) (hs : s.isPlain) (hx : x.isPlain)
    (h : v.put s x before = .ok (old, v')) : v'.isPlain := by
  unfold put at h
  split at h
  · cases h
    exact isPlain_record_insert hv (isPlain_key hs) hx
  · next items =>
    split at h
    · split at h
      · cases h
        exact isPlain_list_set hv hx
      · split at h
        · cases h
          refine arePlain_iff.mpr fun w hw => ?_
          rcases List.mem_append.mp hw with hw | hw
          · exact arePlain_iff.mp hv w hw
          · rw [List.mem_singleton.mp hw]
            exact hx
        · cases h
    · cases h
  · cases h

theorem isPlain_setFrom {p : Path} (hv : v.isPlain) (hp : p.isPlain) (hx : x.isPlain)
    (h : v.setFrom before p x = .ok (old, v')) : v'.isPlain := by
  induction p generalizing v v' before with
  | nil => cases h; exact hx
  | cons s p ih =>
    obtain ⟨hs, hp⟩ := Path.isPlain_cons.mp hp
    cases p with
    | nil => exact isPlain_put hv hs hx h
    | cons s' p =>
      obtain ⟨next, next', hnext, hset, rfl⟩ := setFrom_cons_cons h
      exact isPlain_replace hv hs (ih (isPlain_member? hv hnext) hp hset)

/-- Plain writes keep data plain. -/
theorem isPlain_set {p : Path} (hv : v.isPlain) (hp : p.isPlain) (hx : x.isPlain)
    (h : v.set p x = .ok (old, v')) : v'.isPlain := isPlain_setFrom hv hp hx h

/-! ## Names at the top -/

theorem field?_put {k : String} (h : v.put s x before = .ok (old, v')) :
    (v'.field? k).isSome ↔ (v.field? k).isSome ∨ (∃ es, v = .record es) ∧ s.key = k := by
  unfold put at h
  split at h
  · next entries =>
    cases h
    simp only [field?, Entries.get?_insert]
    by_cases hk : k = s.key
    · simp [hk]
    · simp [hk, Ne.symm hk]
  · split at h
    · split at h
      · cases h; simp [field?]
      · split at h
        · cases h; simp [field?]
        · cases h
    · cases h
  · cases h

theorem field?_replace {next : Value} (hnext : v.member? s = some next) (x : Value) (k : String) :
    ((v.replace s x).field? k).isSome = (v.field? k).isSome := by
  cases v with
  | record entries =>
    simp only [replace, field?, Entries.get?_insert]
    by_cases hk : k = s.key
    · simp only [member?] at hnext
      simp [hk, hnext]
    · simp [hk]
  | list items =>
    simp only [replace]
    split <;> rfl
  | null => rfl
  | bool b => rfl
  | number n => rfl
  | text s => rfl

/-- A write below the root keeps the names at the top. -/
theorem field?_set {p : Path} {k : String} (hp : p ≠ []) (h : v.set p x = .ok (old, v'))
    (hk : (v.field? k).isSome) : (v'.field? k).isSome := by
  match p with
  | [] => exact absurd rfl hp
  | [s] => exact (field?_put h).mpr (.inl hk)
  | s :: s' :: rest =>
    obtain ⟨next, next', hnext, -, rfl⟩ := setFrom_cons_cons h
    rw [field?_replace hnext]
    exact hk

/-- The only name that a write below the root can add at the top is the one it is for. -/
theorem field?_of_set {p : Path} {k : String} (hp : p ≠ []) (h : v.set p x = .ok (old, v'))
    (hk : (v'.field? k).isSome) : (v.field? k).isSome ∨ ∃ s, p = [s] ∧ s.key = k := by
  match p with
  | [] => exact absurd rfl hp
  | [s] => exact ((field?_put h).mp hk).imp_right fun hs => ⟨s, rfl, hs.2⟩
  | s :: s' :: rest =>
    obtain ⟨next, next', hnext, -, rfl⟩ := setFrom_cons_cons h
    rw [field?_replace hnext] at hk
    exact .inl hk

end Value

end ReactiveView
