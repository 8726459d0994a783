import ReactiveView.Proofs.Template.Nested
/-!
# Items at the head of an expression

The item of a repeat is a name, and so is the head of an expression. A name may start with any of
its characters but the ten basic digits, so also with a digit of another script, a fraction or a
raised digit. Substitution takes no such word for an item: it asks for a letter, `_` or `$` at the
front. So the copies of a repeat over such an item still name the item.

Results:
* `startsWord_eq`: what can start a name but no item is a number past the basic ten that is no letter.
* `substitute_head`: what becomes of an item in front of the rest of an expression.
* `substituteText_head_iff`: which items give way to the accessor.
-/
namespace ReactiveView

/-- A number that is neither a letter nor one of the ten basic digits. -/
def Text.isOtherNumber (c : Char) : Bool :=
  128 ≤ c.toNat && inRanges numericRanges c.toNat && !inRanges alphabeticRanges c.toNat

namespace Template

open Text Expression

variable {blanks item tail accessor : List Char}

/-- An item that starts with a number past the ten basic digits. -/
def startsOtherNumber (item : List Char) : Bool := item.head?.any isOtherNumber

/-- Of what can start a name, all but the numbers past the basic ten can start an item. -/
theorem startsWord_eq {c : Char} (hc : isNameChar c) (hd : isDigit c = false) :
    startsWord c = !isOtherNumber c := by
  by_cases hbasic : c.toNat < 128
  · have hother : isOtherNumber c = false := by simp [isOtherNumber, Nat.not_le.mpr hbasic]
    simpa [isNameChar, isAlphanumeric, startsWord, isLetter, hbasic, hd, hother] using hc
  · have hne : ∀ d : Char, d.toNat < 128 → (c == d) = false := fun d hlt =>
      beq_eq_false_iff_ne.mpr fun heq => hbasic (heq ▸ hlt)
    have hunderscore := hne '_' (by decide)
    have hdollar := hne '$' (by decide)
    simp only [isNameChar, isAlphanumeric, if_neg hbasic, hunderscore, hdollar, Bool.or_false,
      Bool.or_eq_true] at hc
    simp only [startsWord, isLetter, if_neg hbasic, hunderscore, hdollar, Bool.or_false,
      isOtherNumber, decide_eq_true (Nat.not_lt.mp hbasic), Bool.true_and]
    cases hletter : inRanges alphabeticRanges c.toNat with
    | true => simp
    | false =>
      rw [hletter] at hc
      simp [hc.resolve_left (by decide)]

/-- Behind the head of an expression stand blanks, then what may follow a head. -/
theorem exists_tail {segments : List Segment} {call : Bool} (hblanks : Blank blanks)
    (hitem : IsName item)
    (h : Spells (blanks ++ item ++ tail) (.field (String.ofList item) :: segments) call) :
    ∃ vs rest, Blank vs ∧ Tail rest segments call ∧ tail = vs ++ rest := by
  obtain ⟨name, first, rest, segments', hn, ⟨us, vs, hu, hv, rfl⟩, ht, htext, hpath⟩ := h
  obtain ⟨hhead, rfl⟩ := List.cons.inj hpath
  obtain rfl := String.ofList_injective (Segment.field.inj hhead)
  have hstop : ∀ cs : List Char, Stops isBlank (item ++ cs) := by
    obtain ⟨c, more, rfl⟩ := List.exists_cons_of_ne_nil hitem.ne_nil
    exact fun cs => stops_cons (isBlank_eq_false_of_isNameChar (hitem.chars c List.mem_cons_self)) _
  simp only [List.append_assoc] at htext
  have hafter := (append_inj_of_stops hblanks (hstop tail) hu (hstop _) htext).2
  exact ⟨vs, rest, hv, ht, List.append_cancel_left hafter⟩

/-- An item in front of the rest of an expression gives way unless it starts with a number past the
ten basic digits; the rest is left alone. -/
theorem substitute_head {segments : List Segment} {call : Bool} (hblanks : Blank blanks)
    (hitem : IsName item)
    (h : Spells (blanks ++ item ++ tail) (.field (String.ofList item) :: segments) call)
    (accessor : List Char) : substitute item accessor (item ++ tail) =
      (if startsOtherNumber item then item else accessor) ++ tail := by
  obtain ⟨vs, rest, hv, ht, rfl⟩ := exists_tail hblanks hitem h
  obtain ⟨c, more, rfl⟩ := List.exists_cons_of_ne_nil hitem.ne_nil
  have hstart : startsWord c = !startsOtherNumber (c :: more) :=
    startsWord_eq (hitem.chars c List.mem_cons_self) (hitem.first c more rfl)
  have hstop : Stops isNameChar (vs ++ rest) :=
    hv.stops (fun _ => isNameChar_eq_false_of_isBlank) ht.stops
  unfold substitute
  rw [substituteFrom_word hitem.chars hstop, substituteFrom_blank hv, substituteFrom_tail ht, hstart,
    beq_self_eq_true, Bool.and_true, Bool.not_false, Bool.and_true]
  cases startsOtherNumber (c :: more) <;> rfl

/-- An item that a repeat can have, at the head of an expression, gives way to the accessor exactly if
it does not start with a number past the ten basic digits, or the accessor is the item again. If it
does start with one, the expression is left as it is. -/
theorem substituteText_head_iff {clause item collection blanks tail accessor : String}
    {e : Expression} (hclause : readRepeat clause = .ok (item, collection))
    (hblanks : Blank blanks.toList) (he : read (blanks ++ item ++ tail) = .ok e)
    (hhead : e.head = item) :
    (substituteText (item ++ tail) item accessor = accessor ++ tail ↔
      startsOtherNumber item.toList = false ∨ accessor = item) ∧
    (startsOtherNumber item.toList → substituteText (item ++ tail) item accessor = item ++ tail) := by
  obtain ⟨before, after, hparts⟩ := exists_clause (readRepeat_eq_ok_iff.mp hclause)
  have hspells := ((read_spells _ e).mp he).1
  rw [String.toList_append, String.toList_append, path, hhead,
    ← String.ofList_toList (s := item), String.toList_ofList] at hspells
  have htext : substituteText (item ++ tail) item accessor =
      (if startsOtherNumber item.toList then item else accessor) ++ tail := by
    rw [substituteText, String.toList_append, substitute_head hblanks hparts.item hspells]
    split <;> simp
  rw [htext]
  cases startsOtherNumber item.toList with
  | false => simp
  | true => simp [eq_comm]

/-- A repeat over an item that is named by an Arabic digit is accepted, but its copies still name the
item; behind a letter the digit does no harm. -/
theorem substituteText_head_iff_digit :
    substituteText "\u0663 . a" "\u0663" "xs[0]" = "\u0663 . a" ∧
      substituteText "\u0663 . a" "\u0663" "xs[0]" ≠ "xs[0] . a" ∧
      substituteText "x\u0663 . a" "x\u0663" "xs[0]" = "xs[0] . a" := by
  have hblanks : Blank " ".toList := List.all_eq_true.mp (by decide)
  have hdigit : readRepeat "\u0663 in xs" = .ok ("\u0663", "xs") :=
    eq_ok_of_toOption (by decide +kernel)
  have hdigit' : read (" " ++ "\u0663" ++ " . a") =
      .ok ⟨"\u0663 . a", "\u0663", [.field "a"], false⟩ := eq_ok_of_toOption (by decide +kernel)
  have hletter : readRepeat "x\u0663 in xs" = .ok ("x\u0663", "xs") :=
    eq_ok_of_toOption (by decide +kernel)
  have hletter' : read (" " ++ "x\u0663" ++ " . a") =
      .ok ⟨"x\u0663 . a", "x\u0663", [.field "a"], false⟩ := eq_ok_of_toOption (by decide +kernel)
  have hother : startsOtherNumber "\u0663".toList := by decide +kernel
  have hbehind : startsOtherNumber "x\u0663".toList = false := by decide +kernel
  refine ⟨(substituteText_head_iff hdigit hblanks hdigit' rfl).2 hother, fun h => ?_,
    (substituteText_head_iff hletter hblanks hletter' rfl).1.mpr (.inl hbehind)⟩
  rcases (substituteText_head_iff hdigit hblanks hdigit' rfl).1.mp h with hplain | hsame
  · rw [hother] at hplain
    cases hplain
  · exact absurd hsame (by decide)

end Template

end ReactiveView
