import ReactiveView.Proofs.Expression.Grammar
import ReactiveView.Template.Repeat
/-!
# The texts of repeats

`Clause` says of which parts the text of a repeat is made up, without the splitting and trimming by
which they are found. No blank is part of a name, so the item is all that stands before the first
blank, also if its name is that of the word that follows; and the blanks behind the word end where
the collection starts, so blanks within the collection do not matter.

Results:
* `isItem_iff`: which texts without blanks are items.
* `Clause.repeat?_eq`, `exists_clause`: the parts of a text are what is found, and what is found are
  parts.
* `readRepeat_eq_iff`: which texts are repeats, of which parts, and how the others are refused.
-/
namespace ReactiveView.Template

open Text Expression

/-- The word between the item and the collection of a repeat. -/
def inWord : List Char := ['i', 'n']

/-- Blanks, at least one. -/
structure Gap (cs : List Char) : Prop where
  blank : Blank cs
  ne_nil : cs ≠ []

/-- The trimmed text of a repeat, in parts: a name, the word `in` with blanks on both sides, and an
expression that is no call and has no blanks around it. -/
structure Clause (source : String) (item before after collection : List Char) : Prop where
  text : trim source.toList = item ++ before ++ inWord ++ after ++ collection
  item : IsName item
  before : Gap before
  after : Gap after
  trimmed : trim collection = collection
  expression : ∃ e, read (String.ofList collection) = .ok e ∧ e.isCall = false

variable {source : String} {item before after collection : List Char}

/-! ## Items and collections -/

theorem isCollection_iff {s : String} :
    isCollection s ↔ ∃ e, read s = .ok e ∧ e.isCall = false := by
  unfold isCollection
  cases read s with
  | ok e => simp
  | error err => simp

/-- An expression that is a name only. -/
theorem spells_name_iff {cs : List Char} (hcs : ∀ c ∈ cs, isBlank c = false) {head : String} :
    Spells cs [.field head] false ↔ IsName cs ∧ head = String.ofList cs := by
  constructor
  · rintro ⟨name, first, rest, segments, hname, ⟨us, vs, hu, hv, rfl⟩,
      ⟨ms, suffix, hms, hcall, rfl⟩, rfl, hpath⟩
    obtain ⟨rfl, rfl⟩ : head = String.ofList name ∧ segments = [] := by simpa [eq_comm] using hpath
    cases hms
    cases hcall
    -- there are no blanks around the name
    have hempty : ∀ {ws : List Char}, Blank ws → (∀ c ∈ ws, isBlank c = false) → ws = [] := by
      intro ws hw hnone
      refine List.eq_nil_iff_forall_not_mem.mpr fun c hc => ?_
      have h := hw c hc
      rw [hnone c hc] at h
      cases h
    obtain rfl := hempty hu fun c hc => hcs c (by simp [hc])
    obtain rfl := hempty hv fun c hc => hcs c (by simp [hc])
    simpa using hname
  · rintro ⟨hname, rfl⟩
    exact ⟨cs, cs, [], [], hname, ⟨[], [], blank_nil, blank_nil, by simp⟩,
      ⟨[], [], .nil, .none, rfl⟩, by simp, rfl⟩

/-- A text without blanks is an item if it is a name. -/
theorem isItem_iff {cs : List Char} (hcs : ∀ c ∈ cs, isBlank c = false) :
    isItem (String.ofList cs) ↔ IsName cs := by
  have hread : isItem (String.ofList cs) ↔
      ∃ e, read (String.ofList cs) = .ok e ∧ e.isCall = false ∧ e.tail = [] := by
    unfold isItem
    cases read (String.ofList cs) with
    | ok e => simp
    | error err => simp
  rw [hread]
  constructor
  · rintro ⟨e, he, hcall, htail⟩
    have hspells := ((read_spells _ e).mp he).1
    rw [String.toList_ofList, path, htail, hcall] at hspells
    exact ((spells_name_iff hcs).mp hspells).1
  · intro hname
    refine ⟨⟨trimmed (String.ofList cs), String.ofList cs, [], false⟩, ?_, rfl, rfl⟩
    refine (read_spells _ _).mpr ⟨?_, rfl⟩
    rw [String.toList_ofList]
    exact (spells_name_iff hcs).mpr ⟨hname, rfl⟩

/-! ## The parts of a text -/

theorem splitBlank_append {word after : List Char} {c : Char}
    (hword : ∀ d ∈ word, isBlank d = false) (hc : isBlank c) :
    splitBlank (word ++ c :: after) = some (word, after) := by
  have hall : ∀ d ∈ word, (!isBlank d) = true := fun d hd => by rw [hword d hd]; rfl
  have hstop : Stops (fun d => !isBlank d) (c :: after) := stops_cons (by simp [hc]) _
  rw [splitBlank, dropWhile_append_stop hall hstop, takeWhile_append_stop hall hstop]

theorem splitBlank_eq_some {cs word after : List Char} (h : splitBlank cs = some (word, after)) :
    (∀ d ∈ word, isBlank d = false) ∧ ∃ c, isBlank c ∧ cs = word ++ c :: after := by
  unfold splitBlank at h
  split at h
  · cases h
  · next c rest heq =>
    cases h
    refine ⟨fun d hd => ?_, c, ?_, ?_⟩
    · have hall := List.all_takeWhile (p := fun d => !isBlank d) (l := cs)
      simpa using List.all_eq_true.mp hall d hd
    · simpa using stops_dropWhile (fun d => !isBlank d) cs c _ heq
    · rw [← heq, List.takeWhile_append_dropWhile]

theorem afterIn_append {us after : List Char} (hu : Blank us) (ha : Gap after) (cs : List Char) :
    afterIn (us ++ inWord ++ after ++ cs) = some (trim cs) := by
  obtain ⟨c, rest, rfl⟩ := List.exists_cons_of_ne_nil ha.ne_nil
  have hc : isBlank c := ha.blank c List.mem_cons_self
  have hskip : skipBlank (us ++ inWord ++ c :: rest ++ cs) = 'i' :: 'n' :: c :: (rest ++ cs) := by
    rw [List.append_assoc, List.append_assoc, skipBlank_append hu]
    exact skipBlank_cons (by decide) _
  have htrim : trim (c :: (rest ++ cs)) = trim cs := by
    have h := trim_append ha.blank blank_nil cs
    rwa [List.append_nil] at h
  simp only [afterIn, hskip, if_pos hc, htrim]

theorem afterIn_eq_some {cs tail : List Char} (h : afterIn cs = some tail) :
    ∃ us rest, Blank us ∧ (∃ c more, rest = c :: more ∧ isBlank c) ∧ tail = trim rest ∧
      cs = us ++ inWord ++ rest := by
  unfold afterIn at h
  split at h
  · next c more heq =>
    split at h
    · next hc =>
      cases h
      obtain ⟨us, hu, hcs⟩ := exists_blank_append_skipBlank cs
      refine ⟨us, c :: more, hu, ⟨c, more, rfl, hc⟩, rfl, ?_⟩
      rw [hcs, heq, List.append_assoc]
      rfl
    · cases h
  · cases h

theorem Clause.item_blank (h : Clause source item before after collection) :
    ∀ c ∈ item, isBlank c = false :=
  fun c hc => isBlank_eq_false_of_isNameChar (h.item.chars c hc)

/-- The parts of a text are found. -/
theorem Clause.repeat?_eq (h : Clause source item before after collection) :
    repeat? source = some (String.ofList item, String.ofList collection) := by
  obtain ⟨c, us, hbefore⟩ := List.exists_cons_of_ne_nil h.before.ne_nil
  have hblank : Blank (c :: us) := hbefore ▸ h.before.blank
  have hsplit : splitBlank (trim source.toList)
      = some (item, us ++ inWord ++ after ++ collection) := by
    have htext : trim source.toList = item ++ c :: (us ++ inWord ++ after ++ collection) := by
      rw [h.text, hbefore]
      simp only [List.append_assoc, List.cons_append]
    rw [htext]
    exact splitBlank_append h.item_blank (hblank c List.mem_cons_self)
  have hafter : afterIn (us ++ inWord ++ after ++ collection) = some collection := by
    rw [afterIn_append (fun d hd => hblank d (List.mem_cons_of_mem c hd)) h.after, h.trimmed]
  have hvalid : (isItem (String.ofList item) && isCollection (String.ofList collection)) = true :=
    Bool.and_eq_true_iff.mpr ⟨(isItem_iff h.item_blank).mpr h.item, isCollection_iff.mpr h.expression⟩
  simp only [repeat?, hsplit, hafter, Option.bind_eq_bind, Option.bind_some]
  exact if_pos hvalid

/-- What is found are parts of the text. -/
theorem exists_clause {i c : String} (h : repeat? source = some (i, c)) :
    ∃ before after, Clause source i.toList before after c.toList := by
  simp only [repeat?, Option.bind_eq_bind, Option.bind_eq_some_iff] at h
  obtain ⟨⟨word, rest⟩, hsplit, tail, hafter, hvalid⟩ := h
  split at hvalid
  · next hboth =>
    cases hvalid
    obtain ⟨hitem, hcollection⟩ := Bool.and_eq_true_iff.mp hboth
    obtain ⟨hword, b, hb, htext⟩ := splitBlank_eq_some hsplit
    obtain ⟨us, tail', hu, ⟨c, more, rfl, hc⟩, rfl, rfl⟩ := afterIn_eq_some hafter
    obtain ⟨gap, hgap, hskip⟩ := exists_blank_append_skipBlank (c :: more)
    have hparts : trim source.toList
        = word ++ b :: us ++ inWord ++ gap ++ skipBlank (c :: more) := by
      rw [htext, List.append_assoc (word ++ b :: us ++ inWord), ← hskip]
      simp only [List.append_assoc, List.cons_append]
    -- the collection reaches to the end of the text, which is trimmed
    have hstart : Stops isBlank (skipBlank (c :: more)) := stops_dropWhile isBlank _
    have hend : Stops isBlank (skipBlank (c :: more)).reverse := by
      have hback := (trim_eq_self_iff.mp (trim_trim source.toList)).2
      rw [hparts, List.reverse_append] at hback
      exact hback.of_append
    have htrimmed : trim (skipBlank (c :: more)) = skipBlank (c :: more) :=
      trim_eq_self_iff.mpr ⟨hstart, hend⟩
    have hsame : trim (c :: more) = skipBlank (c :: more) := by
      have h := trim_append hgap blank_nil (skipBlank (c :: more))
      rwa [List.append_nil, ← hskip, htrimmed] at h
    rw [hsame] at hcollection ⊢
    rw [String.toList_ofList, String.toList_ofList]
    refine ⟨b :: us, gap, hparts, (isItem_iff hword).mp hitem, ⟨?_, List.cons_ne_nil b us⟩,
      ⟨hgap, ?_⟩, htrimmed, isCollection_iff.mp hcollection⟩
    · exact List.forall_mem_cons.mpr ⟨hb, hu⟩
    · rintro rfl
      rw [List.nil_append] at hskip
      rw [hstart c more hskip.symm] at hc
      cases hc
  · cases hvalid

/-- A text has such parts in one way at most. -/
theorem Clause.unique {item' before' after' collection' : List Char}
    (h : Clause source item before after collection)
    (h' : Clause source item' before' after' collection') :
    item = item' ∧ before = before' ∧ after = after' ∧ collection = collection' := by
  have hfound := h.repeat?_eq.symm.trans h'.repeat?_eq
  obtain ⟨hitem, hcollection⟩ := Prod.mk.inj (Option.some.inj hfound)
  obtain rfl := String.ofList_injective hitem
  obtain rfl := String.ofList_injective hcollection
  -- the blanks before the word are those in front of what follows the item
  have htext : before ++ (inWord ++ after) = before' ++ (inWord ++ after') := by
    have heq := h.text.symm.trans h'.text
    simp only [List.append_assoc, List.append_cancel_left_eq] at heq
    simpa only [← List.append_assoc, List.append_cancel_right_eq] using heq
  have hstop : ∀ cs : List Char, Stops isBlank (inWord ++ cs) := fun cs => stops_cons (by decide) _
  have hbefore : before = before' := by
    have heq := congrArg (List.takeWhile isBlank) htext
    rwa [takeWhile_append_stop h.before.blank (hstop _),
      takeWhile_append_stop h'.before.blank (hstop _)] at heq
  subst hbefore
  simp only [List.append_cancel_left_eq] at htext
  exact ⟨rfl, rfl, htext, rfl⟩

theorem readRepeat_eq_ok_iff {parts : String × String} :
    readRepeat source = .ok parts ↔ repeat? source = some parts := by
  unfold readRepeat
  cases repeat? source with
  | none => simp
  | some found => simp

/-- A text is the repeat of an item over a collection exactly if these are parts of it, which they
are in one way at most. Every text without such parts is refused, and the refusal carries it. -/
theorem readRepeat_eq_iff (source : String) :
    (∀ item collection : String, readRepeat source = .ok (item, collection) ↔
      ∃ before after, Clause source item.toList before after collection.toList) ∧
    (∀ {item before after collection item' before' after' collection' : List Char},
      Clause source item before after collection →
      Clause source item' before' after' collection' →
      item = item' ∧ before = before' ∧ after = after' ∧ collection = collection') ∧
    ∀ err : Error, readRepeat source = .error err ↔ err = .malformedRepeat source ∧
      ¬∃ item before after collection, Clause source item before after collection := by
  have hfound : ∀ item collection : String, repeat? source = some (item, collection) ↔
      ∃ before after, Clause source item.toList before after collection.toList := by
    refine fun item collection => ⟨exists_clause, fun ⟨before, after, h⟩ => ?_⟩
    rw [h.repeat?_eq, String.ofList_toList, String.ofList_toList]
  have hnone : repeat? source = none ↔
      ¬∃ item before after collection, Clause source item before after collection := by
    constructor
    · rintro hnone ⟨item, before, after, collection, h⟩
      rw [h.repeat?_eq] at hnone
      cases hnone
    · refine fun hnot => Option.eq_none_iff_forall_ne_some.mpr fun parts hsome => hnot ?_
      obtain ⟨before, after, h⟩ := exists_clause hsome
      exact ⟨_, before, after, _, h⟩
  refine ⟨fun item collection => ?_, fun h h' => h.unique h', fun err => ?_⟩
  · rw [← hfound, readRepeat]
    cases repeat? source with
    | none => simp
    | some parts => simp
  · rw [← hnone, readRepeat]
    cases repeat? source with
    | none => simp [eq_comm]
    | some parts => simp

/-- The word may be the name of the item and of the collection, and stand in a key; two collections
beside each other are none. -/
theorem readRepeat_in :
    (∃ before after, Clause " in  in in[' in '] . in" "in".toList before after
      "in[' in '] . in".toList) ∧
    ¬∃ item before after collection, Clause "a in b in c" item before after collection := by
  obtain ⟨haccepted, -, -⟩ := readRepeat_eq_iff " in  in in[' in '] . in"
  obtain ⟨-, -, hrefused⟩ := readRepeat_eq_iff "a in b in c"
  exact ⟨(haccepted "in" "in[' in '] . in").mp (eq_ok_of_toOption (by decide +kernel)),
    ((hrefused (.malformedRepeat "a in b in c")).mp
      (eq_error_of_errorOf? (by decide +kernel))).2⟩

end ReactiveView.Template
