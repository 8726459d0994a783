import ReactiveView.Proofs.Template.Clause
import ReactiveView.Proofs.Template.Reworded
/-!
# Repeats within repeats

The repeat in the template of another one is substituted as a whole, though only its collection is
an expression: its item and the word behind it are names like any other to the substitution. So it
survives unless the outer item is named like one of them. If it is, the accessor stands in the place
of a name, and that leaves the text as it was only if it is this name.

Results:
* `Clause.substitute_eq`: the parts of a repeat before and after the substitution.
* `substitute_self`: an item that gives way to its own name.
* `readRepeat_substituteText`: which repeats survive.
-/
namespace ReactiveView.Template

open Text Expression

variable {source : String} {item accessor inner before after collection cs : List Char}

/-! ## The parts of a repeat -/

theorem Gap.stops (h : Gap cs) (rest : List Char) : Stops isNameChar (cs ++ rest) := by
  obtain ⟨c, us, rfl⟩ := List.exists_cons_of_ne_nil h.ne_nil
  exact stops_cons (isNameChar_eq_false_of_isBlank (h.blank c List.mem_cons_self)) _

theorem isName_inWord : IsName inWord where
  ne_nil := nofun
  chars := List.all_eq_true.mp (by decide +kernel)
  first := by
    rintro c rest ⟨⟩
    rfl

/-- The item and the word give way like the head of the collection. -/
theorem Clause.substitute_eq (h : Clause source inner before after collection)
    (hitem : IsItemName item) : substitute item accessor (Text.trim source.toList) =
      (if inner = item then accessor else inner) ++ before ++
        (if inWord = item then accessor else inWord) ++ after ++
          substitute item accessor collection := by
  rw [h.text]
  unfold substitute
  simp only [List.append_assoc]
  rw [substituteFrom_name h.item hitem (h.before.stops _), substituteFrom_blank h.before.blank,
    substituteFrom_name isName_inWord hitem (h.after.stops _), substituteFrom_blank h.after.blank]

/-- Substitution makes an expression of an expression. -/
theorem exists_spells_substitute {path front : Path} (h : Spells cs path false)
    (hitem : IsItemName item) (ha : Spells accessor front false) :
    ∃ path', Spells (substitute item accessor cs) path' false := by
  obtain ⟨us, name, vs, rest, segments, hu, hv, -, ht, -, hbefore, hafter⟩ :=
    exists_substitute_eq h hitem accessor
  by_cases hname : name = item
  · rw [if_pos hname] at hafter
    obtain ⟨_, _, _, segments', _, _, _, _, rfl⟩ := id ha
    rw [hafter]
    exact ⟨_, readParts_sound (readParts_accessor hu hv ha ht)⟩
  · rw [if_neg hname, ← hbefore] at hafter
    rw [hafter]
    exact ⟨path, h⟩

/-- A text spells an expression that is no call. -/
theorem exists_read_iff : (∃ e, read (String.ofList cs) = .ok e ∧ e.isCall = false) ↔
    ∃ path, Spells cs path false := by
  constructor
  · rintro ⟨e, he, hcall⟩
    have hspells := ((read_spells _ e).mp he).1
    rw [String.toList_ofList, hcall] at hspells
    exact ⟨e.path, hspells⟩
  · rintro ⟨path, h⟩
    obtain ⟨name, _, _, segments, _, _, _, _, rfl⟩ := id h
    refine ⟨⟨trimmed (String.ofList cs), String.ofList name, segments, false⟩, ?_, rfl⟩
    refine (read_spells _ _).mpr ⟨?_, rfl⟩
    rw [String.toList_ofList]
    exact h

/-- If neither the item nor the word gives way, the parts are the same but for the collection. -/
theorem Clause.substituted (h : Clause source inner before after collection)
    (hitem : IsItemName item) {path : Path} (ha : Spells accessor path false)
    (hj : Joins accessor) (hinner : inner ≠ item) (hword : inWord ≠ item) :
    Clause (String.ofList (substitute item accessor source.toList)) inner before after
      (substitute item accessor collection) where
  text := by
    rw [String.toList_ofList, trim_substitute hj, h.substitute_eq hitem, if_neg hinner,
      if_neg hword]
  item := h.item
  before := h.before
  after := h.after
  trimmed := (reworded_substitute item accessor collection).trim_eq hj h.trimmed
  expression := by
    obtain ⟨path', hspells⟩ := exists_read_iff.mp h.expression
    exact exists_read_iff.mpr (exists_spells_substitute hspells hitem ha)

/-! ## Items that give way to their own name -/

theorem substituteFrom_self (item : List Char) (afterPoint : Bool) (cs : List Char) :
    substituteFrom item item afterPoint cs = cs := by
  fun_induction substituteFrom item item afterPoint cs with
  | case1 => rfl
  | case2 afterPoint c rest hc word ih =>
    have hword : (if (startsWord c && word == item && !afterPoint) = true then item else word)
        = word := by
      split
      · next h =>
        simp only [Bool.and_eq_true, beq_iff_eq] at h
        exact h.1.2.symm
      · rfl
    rw [hword, ih]
    exact congrArg (c :: ·) List.takeWhile_append_dropWhile
  | case3 afterPoint c rest hc hquote ih =>
    rw [ih, List.cons_append, quotedPart_append]
  | case4 afterPoint rest hc hquote ih => rw [ih]
  | case5 afterPoint c rest hc hquote hpoint ih => rw [ih]

theorem substitute_self (item cs : List Char) : substitute item item cs = cs :=
  substituteFrom_self item false cs

/-! ## Texts without their blanks -/

/-- A text without its blanks. -/
def unspaced (cs : List Char) : List Char := cs.filter fun c => !isBlank c

theorem unspaced_append (cs ds : List Char) : unspaced (cs ++ ds) = unspaced cs ++ unspaced ds :=
  List.filter_append cs ds

theorem unspaced_blank (h : Blank cs) : unspaced cs = [] :=
  List.filter_eq_nil_iff.mpr fun c hc => by simp [h c hc]

theorem unspaced_name (h : IsName cs) : unspaced cs = cs :=
  List.filter_eq_self.mpr fun c hc => by simp [isBlank_eq_false_of_isNameChar (h.chars c hc)]

/-- Every member has a character that is part of no name: its point or its bracket. -/
theorem exists_mark_of_member {s : Segment} (h : Member cs s) :
    ∃ c ∈ unspaced cs, isNameChar c = false := by
  have hmark : ∀ {mark : Char} {token : List Char}, Padded [mark] token →
      isBlank mark = false → mark ∈ unspaced token := by
    rintro mark token ⟨us, vs, -, -, rfl⟩ hblank
    exact List.mem_filter.mpr ⟨by simp, by simp [hblank]⟩
  cases h with
  | name hp hn hc =>
    refine ⟨'.', ?_, by decide +kernel⟩
    rw [unspaced_append]
    exact List.mem_append_left _ (hmark hp (by decide))
  | index ho hd hc he =>
    refine ⟨'[', ?_, by decide +kernel⟩
    rw [unspaced_append, unspaced_append]
    exact List.mem_append_left _ (List.mem_append_left _ (hmark ho (by decide)))
  | quoted hq ho ht hc he =>
    refine ⟨'[', ?_, by decide +kernel⟩
    rw [unspaced_append, unspaced_append]
    exact List.mem_append_left _ (List.mem_append_left _ (hmark ho (by decide)))

/-- A trimmed expression of name characters and blanks is a name, and has no blanks. -/
theorem unspaced_eq_self {path : Path} (h : Spells cs path false) (htrim : trim cs = cs)
    (hchars : ∀ c ∈ unspaced cs, isNameChar c) : unspaced cs = cs := by
  obtain ⟨name, first, _, segments, hn, ⟨us, vs, hu, hv, rfl⟩, ⟨ms, suffix, hms, hcall, rfl⟩, rfl,
    rfl⟩ := h
  cases hcall
  cases hms with
  | nil =>
    have hname : trim name = name :=
      trim_eq_self_iff.mpr ⟨fun c rest heq => isBlank_eq_false_of_isNameChar
          (hn.chars c (heq ▸ List.mem_cons_self)),
        fun c rest heq => isBlank_eq_false_of_isNameChar
          (hn.chars c (List.mem_reverse.mp (heq ▸ List.mem_cons_self)))⟩
    have hself : us ++ name ++ vs ++ ([] ++ []) = name := by
      rw [List.append_nil, List.append_nil] at htrim ⊢
      rw [← htrim, trim_append hu hv, hname]
    rw [hself, unspaced_name hn]
  | @cons cs ms s segments hm hms =>
    obtain ⟨c, hc, hmark⟩ := exists_mark_of_member hm
    rw [hchars c (by simp only [unspaced_append, List.mem_append, hc, true_or, or_true])] at hmark
    cases hmark

/-! ## Repeats that survive -/

/-- If the parts of a repeat but for the collection are the same after the substitution, no name gave
way, or one gave way to itself. -/
theorem Clause.kept (h : Clause source inner before after collection) (hitem : IsItemName item)
    {path : Path} (ha : Spells accessor path false) (htrim : Text.trim accessor = accessor)
    {before' after' : List Char}
    (h' : Clause (String.ofList (substitute item accessor source.toList)) inner before' after'
      (substitute item accessor collection)) :
    (item ≠ inner ∧ item ≠ inWord) ∨ accessor = item := by
  have hparts := h'.text
  rw [String.toList_ofList, trim_substitute (joins_of_spells ha htrim), h.substitute_eq hitem,
    List.append_cancel_right_eq] at hparts
  have hsame := congrArg unspaced hparts
  simp only [unspaced_append, unspaced_blank h.before.blank, unspaced_blank h.after.blank,
    unspaced_blank h'.before.blank, unspaced_blank h'.after.blank, List.append_nil,
    unspaced_name h.item, unspaced_name isName_inWord] at hsame
  -- what gave way is what the accessor is but for blanks
  have hback : unspaced accessor = item → (item ≠ inner ∧ item ≠ inWord) ∨ accessor = item := by
    intro heq
    rw [← heq, unspaced_eq_self ha htrim fun c hc => hitem.name.chars c (heq ▸ hc)]
    exact .inr rfl
  by_cases hinner : inner = item
  · by_cases hword : inWord = item
    · rw [if_pos hinner, if_pos hword, hinner, hword] at hsame
      have hlength := congrArg List.length hsame
      rw [List.length_append, List.length_append] at hlength
      exact hback (List.append_inj hsame (by omega)).1
    · rw [if_pos hinner, if_neg hword, unspaced_name isName_inWord, hinner,
        List.append_cancel_right_eq] at hsame
      exact hback hsame
  · by_cases hword : inWord = item
    · rw [if_neg hinner, if_pos hword, unspaced_name h.item, List.append_cancel_left_eq,
        hword] at hsame
      exact hback hsame
    · exact .inl ⟨Ne.symm hinner, Ne.symm hword⟩

/-- A repeat in the template of another one survives the substitution, with the same item and with
the substituted collection, exactly if the outer item is named neither like the inner one nor like
the word behind it, or the accessor is that name again. -/
theorem readRepeat_substituteText {source innerItem collection item accessor : String}
    {a : Expression} (h : readRepeat source = .ok (innerItem, collection))
    (hitem : IsItemName item.toList) (ha : read accessor = .ok a) (hcall : a.isCall = false)
    (htrim : trimmed accessor = accessor) :
    readRepeat (substituteText source item accessor)
        = .ok (innerItem, substituteText collection item accessor) ↔
      (item ≠ innerItem ∧ item ≠ "in") ∨ accessor = item := by
  have hspells := ((read_spells accessor a).mp ha).1
  rw [hcall] at hspells
  have htrim' : trim accessor.toList = accessor.toList := by
    simpa [trimmed] using congrArg String.toList htrim
  have hfound : ∀ {s i c : String}, readRepeat s = .ok (i, c) ↔ repeat? s = some (i, c) := by
    intro s i c
    unfold readRepeat
    cases repeat? s with
    | none => simp
    | some parts => simp
  have hin : inWord = "in".toList := rfl
  rw [hfound] at h ⊢
  obtain ⟨before, after, hclause⟩ := exists_clause h
  constructor
  · intro h'
    obtain ⟨before', after', hclause'⟩ := exists_clause h'
    rw [substituteText, substituteText, String.toList_ofList] at hclause'
    have hkept := hclause.kept hitem hspells htrim' hclause'
    simpa only [ne_eq, hin, String.toList_inj] using hkept
  · rintro (⟨hinner, hword⟩ | rfl)
    · have hclause' := hclause.substituted hitem hspells (joins_of_spells hspells htrim')
        (fun heq => hinner (String.toList_inj.mp heq).symm)
        (fun heq => hword (String.toList_inj.mp (hin.symm.trans heq)).symm)
      rw [substituteText, hclause'.repeat?_eq, String.ofList_toList, substituteText]
    · rw [substituteText, substituteText, substitute_self, substitute_self, String.ofList_toList,
        String.ofList_toList, h]

theorem isItemName_cons {c : Char} {more : List Char} (hstart : startsWord c)
    (hdigit : isDigit c = false) (hmore : ∀ d ∈ c :: more, isNameChar d) :
    IsItemName (c :: more) where
  name := ⟨List.cons_ne_nil c more, hmore, by rintro d rest ⟨⟩; exact hdigit⟩
  first := by
    rintro d rest ⟨⟩
    exact hstart

/-- A list of lists survives in the copies of the outer list, but not if both name their items
alike. -/
theorem readRepeat_substituteText_tags :
    readRepeat (substituteText "tag in fruit.tags" "fruit" "fruits[3]")
        = .ok ("tag", substituteText "fruit.tags" "fruit" "fruits[3]") ∧
      readRepeat (substituteText "fruit in fruit.tags" "fruit" "fruits[3]")
        ≠ .ok ("fruit", substituteText "fruit.tags" "fruit" "fruits[3]") := by
  have hchars : "fruit".toList = 'f' :: ['r', 'u', 'i', 't'] := rfl
  have hitem : IsItemName "fruit".toList := by
    rw [hchars]
    exact isItemName_cons rfl rfl (List.all_eq_true.mp (by decide +kernel))
  have ha : read "fruits[3]" = .ok ⟨"fruits[3]", "fruits", [.index 3], false⟩ :=
    eq_ok_of_toOption (by decide +kernel)
  have htrim : trimmed "fruits[3]" = "fruits[3]" := by decide +kernel
  have hinner : readRepeat "tag in fruit.tags" = .ok ("tag", "fruit.tags") :=
    eq_ok_of_toOption (by decide +kernel)
  have hshadowed : readRepeat "fruit in fruit.tags" = .ok ("fruit", "fruit.tags") :=
    eq_ok_of_toOption (by decide +kernel)
  refine ⟨(readRepeat_substituteText hinner hitem ha rfl htrim).mpr (.inl (by decide)), fun h => ?_⟩
  have hiff := (readRepeat_substituteText hshadowed hitem ha rfl htrim).mp h
  exact absurd hiff (by decide)

end ReactiveView.Template
