import ReactiveView.Proofs.Surface.Texts
/-!
# What an element shows

Writing the text or an attribute of an element makes the element show it, and changes what no other
element shows.

Results:
* `setText_shows`, `setAttribute_shows`: the effect of a write, which succeeds on every element.
* `textContent_of_showsText`: an element that shows a text has it as its text content.
-/
namespace ReactiveView.Surface

variable {ℓ : Type} {s s' : Surface ℓ}

/-- A node that is an element. -/
def IsElement (s : Surface ℓ) (i : Nat) : Prop := ∃ tag as, s.content? i = some (.element tag as)

/-- An element whose only child is a text, this one. -/
def ShowsText (s : Surface ℓ) (i : Nat) (t : String) : Prop :=
  s.IsElement i ∧ ∃ c, s.forest.children i = [c] ∧ s.content? c = some (.text t)

/-- An element with an attribute of this value. -/
def ShowsAttribute (s : Surface ℓ) (i : Nat) (name t : String) : Prop :=
  ∃ tag as, s.content? i = some (.element tag as) ∧ Entries.get? as name = some t

/-- What elements other than a given one are and show is kept. -/
structure KeepsOthers (s s' : Surface ℓ) (i : Nat) : Prop where
  element : ∀ j, s.IsElement j → s'.IsElement j
  text : ∀ j t, j ≠ i → s.ShowsText j t → s'.ShowsText j t
  value : ∀ j name t, j ≠ i → s.ShowsAttribute j name t → s'.ShowsAttribute j name t

theorem IsElement.lt {i : Nat} (h : s.IsElement i) : i < s.size := by
  obtain ⟨tag, as, h⟩ := h
  exact lt_of_content? h

/-! ## Writing an attribute -/

/-- A write of an attribute succeeds on an element. -/
theorem setAttribute_shows {i : Nat} (hi : s.IsElement i) (name t : String) :
    ∃ s', s.setAttribute i name t = .ok s' ∧ s'.ShowsAttribute i (Text.lowered name) t ∧
      KeepsOthers s s' i := by
  obtain ⟨tag, as, hi⟩ := hi
  have hcontent : ∀ j, j ≠ i → ∀ g, (s.mapContent i g).content? j = s.content? j :=
    fun j hj g => by rw [content?_mapContent, if_neg (Ne.symm hj)]
  have hself : ∀ c, (s.mapContent i fun _ => c).content? i = some c :=
    fun c => by rw [content?_mapContent, if_pos rfl, hi]; rfl
  refine ⟨_, by rw [setAttribute, hi], ⟨tag, _, hself _, ?_⟩, ?_, ?_, ?_⟩
  · rw [Entries.get?_insert, if_pos rfl]
  · intro j hj
    by_cases h : j = i
    · exact ⟨tag, _, by rw [h]; exact hself _⟩
    · obtain ⟨tag', as', hj⟩ := hj
      exact ⟨tag', as', by rw [hcontent j h]; exact hj⟩
  · rintro j u hj ⟨⟨tag', as', hel⟩, c, hchildren, hc⟩
    have hci : c ≠ i := by
      rintro rfl
      rw [hi] at hc
      cases hc
    refine ⟨⟨tag', as', by rw [hcontent j hj]; exact hel⟩, c, ?_, by rw [hcontent c hci]; exact hc⟩
    simpa only [mapContent, Forest.children_mapContent] using hchildren
  · rintro j name' u hj ⟨tag', as', hel, hu⟩
    exact ⟨tag', as', by rw [hcontent j hj]; exact hel, hu⟩

/-! ## Writing a text -/

/-- What is shown depends on what elements are, and on their lone texts. -/
theorem keepsOthers_of_loneText? {i : Nat}
    (helement : ∀ j tag as, s.content? j = some (.element tag as) →
      s'.content? j = some (.element tag as))
    (hlone : ∀ j, j ≠ i → ∀ k t, s.loneText? j = some k → s.content? k = some (.text t) →
      s'.loneText? j = some k ∧ s'.content? k = some (.text t)) : KeepsOthers s s' i := by
  have hkeep : ∀ j, s.IsElement j → s'.IsElement j := by
    rintro j ⟨tag, as, hj⟩
    exact ⟨tag, as, helement j tag as hj⟩
  refine ⟨hkeep, ?_, ?_⟩
  · rintro j t hj ⟨hel, k, hchildren, hk⟩
    obtain ⟨hlone', hk'⟩ := hlone j hj k t (loneText?_eq_some_iff.mpr ⟨hchildren, t, hk⟩) hk
    exact ⟨hkeep j hel, k, (loneText?_eq_some hlone').1, hk'⟩
  · rintro j name t - ⟨tag, as, hel, ht⟩
    exact ⟨tag, as, helement j tag as hel, ht⟩

/-- A text that is written over leaves all elements what they are. -/
theorem Overwrites.content?_element {i k : Nat} {t : String} (hk : s.loneText? i = some k)
    (h : Overwrites k t s s') {j : Nat} {tag : String} {as : Entries String}
    (hj : s.content? j = some (.element tag as)) : s'.content? j = some (.element tag as) := by
  obtain ⟨-, u, hu⟩ := loneText?_eq_some hk
  have hne : k ≠ j := by
    rintro rfl
    rw [hu] at hj
    cases hj
  rw [h.content?, if_neg hne, hj]

/-- A new text leaves all nodes what they are. -/
theorem Supplants.content?_of_some {i : Nat} {t : String} (h : Supplants i t s s') {j : Nat}
    {c : Content} (hj : s.content? j = some c) : s'.content? j = some c := by
  rw [h.content?, if_neg (Nat.ne_of_lt (lt_of_content? hj)), hj]

/-- A text written over the one that an element shows alone. -/
theorem Overwrites.shows (hs : Sound s) {i k : Nat} {t : String} (hi : s.IsElement i)
    (hk : s.loneText? i = some k) (h : Overwrites k t s s') :
    s'.ShowsText i t ∧ KeepsOthers s s' i := by
  obtain ⟨hchildren, u, hu⟩ := loneText?_eq_some hk
  have hkeep : KeepsOthers s s' i := by
    refine keepsOthers_of_loneText? (fun j tag as hj => h.content?_element hk hj)
      fun j hj m v hm hv => ⟨(h.loneText? hk j).trans hm, ?_⟩
    -- a text that is the child of another element is not this one
    have hother : k ≠ m := by
      rintro rfl
      have hjk := (hs.linked.iff j k).mp (by rw [(loneText?_eq_some hm).1]; exact .head _)
      have hik := (hs.linked.iff i k).mp (by rw [hchildren]; exact .head _)
      exact hj (Option.some.inj (hjk.symm.trans hik))
    rw [h.content?, if_neg hother, hv]
  refine ⟨⟨hkeep.element i hi, k, (h.children i).trans hchildren, ?_⟩, hkeep⟩
  rw [h.content?, if_pos rfl, hu]
  rfl

/-- A text put in place of what is below an element. -/
theorem Supplants.shows (hs : Sound s) {i : Nat} {t : String} (hi : s.IsElement i)
    (h : Supplants i t s s') : s'.ShowsText i t ∧ KeepsOthers s s' i := by
  have hkeep : KeepsOthers s s' i := by
    refine keepsOthers_of_loneText? (fun j tag as hj => h.content?_of_some hj)
      fun j hj m v hm hv => ?_
    rw [h.loneText? hs, if_neg (Ne.symm hj)]
    exact ⟨hm, h.content?_of_some hv⟩
  refine ⟨⟨hkeep.element i hi, s.size, ?_, ?_⟩, hkeep⟩
  · rw [h.children, if_pos rfl]
  · rw [h.content?, if_pos rfl]

/-- A write of a text succeeds on an element. -/
theorem setText_shows (hs : Sound s) {i : Nat} (hi : s.IsElement i) (t : String) :
    ∃ s', s.setText i t = (.ok (), s') ∧ s'.ShowsText i t ∧ KeepsOthers s s' i := by
  obtain ⟨tag, as, hel⟩ := id hi
  cases h : s.loneText? i with
  | some k =>
    obtain ⟨s', hset, hover⟩ := setText_of_loneText hel h t
    exact ⟨s', hset, hover.shows hs hi h⟩
  | none =>
    obtain ⟨s', hset, hnew⟩ := setText_of_no_loneText hs hel rfl h t
    exact ⟨s', hset, hnew.shows hs hi⟩

/-! ## Reading what is shown -/

theorem descendantsWithin_of_children {α : Type} {f : Forest α} {i c : Nat}
    (hi : f.children i = [c]) (hc : f.children c = []) (levels : Nat) :
    f.descendantsWithin (levels + 1) i = [c] := by
  rw [Forest.descendantsWithin, hi]
  cases levels <;> simp [Forest.descendantsWithin, hc]

/-- The text of a node that has one child only, a text. -/
theorem textContent_of_lone (hs : Sound s) {i k : Nat} {c : Content} {t : String}
    (hi : s.content? i = some c) (hc : isLeaf c = false) (hchildren : s.forest.children i = [k])
    (hk : s.content? k = some (.text t)) : s.textContent i = .ok t := by
  obtain ⟨n, hn⟩ : ∃ n, s.forest.size = n + 1 := by
    have : i < s.forest.size := lt_of_content? hi
    exact ⟨s.forest.size - 1, by omega⟩
  have hbelow : s.forest.descendants i = [k] := by
    rw [Forest.descendants, hn]
    exact descendantsWithin_of_children hchildren (hs.leaf k _ hk rfl) n
  have hown : s.ownText i = "" := by
    rw [ownText, hi]
    cases c with
    | document => rfl
    | element => rfl
    | text => cases hc
    | comment => cases hc
  have hownk : s.ownText k = t := by rw [ownText, hk]
  simp [textContent, content, hi, hbelow, hown, hownk, Except.map, String.join]

/-- An element that shows a text has no other text below it. -/
theorem textContent_of_showsText (hs : Sound s) {i : Nat} {t : String} (h : s.ShowsText i t) :
    s.textContent i = .ok t := by
  obtain ⟨⟨tag, as, hel⟩, c, hchildren, hc⟩ := h
  exact textContent_of_lone hs hel rfl hchildren hc

theorem attributeValue_of_showsAttribute {i : Nat} {name t : String}
    (h : s.ShowsAttribute i name t) : s.attributeValue i name = .ok (some t) := by
  obtain ⟨tag, as, hel, ht⟩ := h
  simp [attributeValue, content, hel, ht, Except.map]

end ReactiveView.Surface
