import ReactiveView.Proofs.Expression.Evaluation
import ReactiveView.Template.Substitution
/-!
# Items in expressions

Substitution scans a text on its own, without reading it as an expression. On the texts of
expressions it does what it should: only the head can give way to the accessor. A member's name
follows a point, the digits of an index start no word, and a quoted text is passed over with its
escapes, as it is when it is read.

Results:
* `substituteFrom_tail`: what follows the head of an expression is left alone.
* `exists_substitute_eq`: the text of an expression before and after the substitution.
* `read_substituteText`: the new text is an expression again, and evaluates as the old one does
  where the item stands for the value at the accessor.
-/
namespace ReactiveView

open Text

/-- Names of which one stands for a value. -/
def Names.standing {S : Type} (names : Names S) (name : String) (v : Value) : Names S :=
  { names with lookup := fun n => if n = name then pure (some v) else names.lookup n }

namespace Template

open Expression

variable {item accessor : List Char} {afterPoint : Bool}

/-- The name of an item: a name that starts with a letter, `_` or `$`. -/
structure IsItemName (cs : List Char) : Prop where
  name : IsName cs
  first : ∀ c rest, cs = c :: rest → startsWord c

/-! ## What substitution does to tokens -/

theorem substituteFrom_nil : substituteFrom item accessor afterPoint [] = [] := by
  unfold substituteFrom
  rfl

theorem substituteFrom_word {c : Char} {more rest : List Char} (hw : ∀ d ∈ c :: more, isNameChar d)
    (hr : Stops isNameChar rest) :
    substituteFrom item accessor afterPoint (c :: more ++ rest) =
      (if startsWord c && c :: more == item && !afterPoint then accessor else c :: more) ++
        substituteFrom item accessor false rest := by
  have hc : isWordChar c = true := hw c List.mem_cons_self
  have hmore : ∀ d ∈ more, isWordChar d := fun d hd => hw d (List.mem_cons_of_mem _ hd)
  rw [List.cons_append, substituteFrom, if_pos hc]
  simp only [takeWhile_append_stop hmore hr, dropWhile_append_stop hmore hr]

/-- A name at the start of a path gives way if it is the item. -/
theorem substituteFrom_name {name rest : List Char} (hn : IsName name) (hitem : IsItemName item)
    (hr : Stops isNameChar rest) : substituteFrom item accessor false (name ++ rest) =
      (if name = item then accessor else name) ++ substituteFrom item accessor false rest := by
  obtain ⟨c, more, rfl⟩ := List.exists_cons_of_ne_nil hn.ne_nil
  have hhead : (startsWord c && c :: more == item && !false) = decide (c :: more = item) := by
    by_cases heq : c :: more = item
    · simp [heq, hitem.first c more heq.symm]
    · simp [heq]
  rw [substituteFrom_word hn.chars hr, hhead]
  simp only [decide_eq_true_eq]

theorem substituteFrom_point (rest : List Char) :
    substituteFrom item accessor afterPoint ('.' :: rest) =
      '.' :: substituteFrom item accessor true rest := by
  rw [substituteFrom]
  rfl

/-- A character that is part of no word, quotes nothing and is no point. -/
theorem substituteFrom_other {c : Char} (hw : isNameChar c = false) (hq : c ≠ '\'' ∧ c ≠ '"')
    (hp : c ≠ '.') (rest : List Char) : substituteFrom item accessor afterPoint (c :: rest) =
      c :: substituteFrom item accessor (afterPoint && isBlank c) rest := by
  rw [substituteFrom, if_neg (by simp [isWordChar, hw]), if_neg (by simp [hq]), if_neg hp]

theorem substituteFrom_blank {us : List Char} (hu : Blank us) (rest : List Char) :
    substituteFrom item accessor afterPoint (us ++ rest) =
      us ++ substituteFrom item accessor afterPoint rest := by
  induction us with
  | nil => rfl
  | cons c us ih =>
    have hc : isBlank c := hu c List.mem_cons_self
    have hquote : c ≠ '\'' ∧ c ≠ '"' := ⟨ne_of_isBlank hc rfl, ne_of_isBlank hc rfl⟩
    rw [List.cons_append, substituteFrom_other (isNameChar_eq_false_of_isBlank hc) hquote
      (ne_of_isBlank hc rfl), hc, Bool.and_true, ih fun d hd => hu d (List.mem_cons_of_mem _ hd)]
    rfl

/-- A quoted text is passed over up to the quote that closes it. -/
theorem quotedPart_quoted {quote : Char} {body text : List Char} (hq : quote ≠ '\\')
    (h : Quoted quote body text) (rest : List Char) :
    quotedPart quote (body ++ quote :: rest) = (body ++ [quote], rest) := by
  induction h with
  | nil =>
    unfold quotedPart
    split
    · next heq => cases heq
    · next heq => cases heq; exact absurd rfl hq
    · next heq => cases heq; exact absurd rfl hq
    · next heq => cases heq; simp
  | escaped c _ ih => simp [quotedPart, ih]
  | @plain body text c hc hb _ ih => simp [quotedPart, hb, hc, ih]

theorem substituteFrom_quoted {quote : Char} {body text : List Char}
    (hq : quote = '\'' ∨ quote = '"') (h : Quoted quote body text) (rest : List Char) :
    substituteFrom item accessor afterPoint (quote :: body ++ [quote] ++ rest) =
      quote :: body ++ [quote] ++ substituteFrom item accessor afterPoint rest := by
  have hne : quote ≠ '\\' := by rcases hq with rfl | rfl <;> decide
  have hword : isWordChar quote = false := by rcases hq with rfl | rfl <;> rfl
  have hpart := quotedPart_quoted hne h rest
  rw [List.cons_append, List.cons_append, List.append_assoc, List.singleton_append, substituteFrom,
    if_neg (by simp [hword]), if_pos hq, hpart]

/-- A token that is left alone is left alone together with the blanks around it. -/
theorem substituteFrom_padded {token cs rest : List Char} {before after : Bool}
    (h : Padded token cs)
    (htoken : ∀ vs, Blank vs → substituteFrom item accessor before (token ++ (vs ++ rest)) =
      token ++ substituteFrom item accessor after (vs ++ rest)) :
    substituteFrom item accessor before (cs ++ rest) =
      cs ++ substituteFrom item accessor after rest := by
  obtain ⟨us, vs, hu, hv, rfl⟩ := h
  calc substituteFrom item accessor before (us ++ token ++ vs ++ rest)
      = us ++ substituteFrom item accessor before (token ++ (vs ++ rest)) := by
        rw [List.append_assoc, List.append_assoc, substituteFrom_blank hu]
    _ = us ++ (token ++ (vs ++ substituteFrom item accessor after rest)) := by
        rw [htoken vs hv, substituteFrom_blank hv]
    _ = us ++ token ++ vs ++ substituteFrom item accessor after rest := by
        rw [List.append_assoc, List.append_assoc]

/-- A bracket or a parenthesis. -/
theorem substituteFrom_mark {mark : Char} {cs : List Char} (h : Padded [mark] cs)
    (hm : mark ∈ ['[', ']', '(', ')']) (rest : List Char) :
    substituteFrom item accessor false (cs ++ rest) =
      cs ++ substituteFrom item accessor false rest := by
  obtain ⟨hword, hquote, hpoint⟩ :
      isNameChar mark = false ∧ (mark ≠ '\'' ∧ mark ≠ '"') ∧ mark ≠ '.' := by
    simp only [List.mem_cons, List.not_mem_nil, or_false] at hm
    rcases hm with rfl | rfl | rfl | rfl <;> exact ⟨rfl, ⟨by decide, by decide⟩, by decide⟩
  exact substituteFrom_padded h fun vs _ => substituteFrom_other hword hquote hpoint _

/-! ## What substitution does to expressions -/

theorem startsWord_eq_false_of_isDigit {c : Char} (h : isDigit c) : startsWord c = false := by
  have hrange := isDigit_iff.mp h
  have hletter : isBasicLetter c = false := by
    rw [Bool.eq_false_iff, ne_eq, isBasicLetter_iff]
    omega
  have hunderscore : c ≠ '_' := by
    rintro rfl
    exact absurd h (by decide)
  have hdollar : c ≠ '$' := by
    rintro rfl
    exact absurd h (by decide)
  simp [startsWord, isLetter, hletter, hunderscore, hdollar, show c.toNat < 128 by omega]

/-- No member of an expression gives way to the accessor. -/
theorem substituteFrom_member {cs : List Char} {s : Segment} (h : Member cs s) {rest : List Char}
    (hr : Stops isNameChar rest) : substituteFrom item accessor false (cs ++ rest) =
      cs ++ substituteFrom item accessor false rest := by
  have hblank : ∀ {vs more : List Char}, Blank vs → Stops isNameChar more →
      Stops isNameChar (vs ++ more) := fun hv hmore =>
    hv.stops (fun _ => isNameChar_eq_false_of_isBlank) hmore
  cases h with
  | @name point cs name hp hn hc =>
    obtain ⟨c, more, rfl⟩ := List.exists_cons_of_ne_nil hn.ne_nil
    -- a point came last, blanks apart, so the name is no head
    have hname : substituteFrom item accessor true (cs ++ rest) =
        cs ++ substituteFrom item accessor false rest := by
      refine substituteFrom_padded hc fun vs hv => ?_
      rw [substituteFrom_word hn.chars (hblank hv hr), Bool.not_true, Bool.and_false]
      rfl
    rw [List.append_assoc, substituteFrom_padded hp fun vs _ => substituteFrom_point _, hname,
      List.append_assoc]
  | @index opening cs closing digits n ho hd hc he =>
    obtain ⟨c, more, rfl⟩ := List.exists_cons_of_ne_nil hd.ne_nil
    have hword : ∀ d ∈ c :: more, isNameChar d := fun d hm => by
      simp [isNameChar, isAlphanumeric_of_isDigit (hd.digits d hm)]
    have hdigits : substituteFrom item accessor false (cs ++ (closing ++ rest)) =
        cs ++ substituteFrom item accessor false (closing ++ rest) := by
      refine substituteFrom_padded hc fun vs hv => ?_
      rw [substituteFrom_word hword (hblank hv (padded_stops he rfl rest)),
        startsWord_eq_false_of_isDigit (hd.digits c List.mem_cons_self)]
      rfl
    rw [List.append_assoc, List.append_assoc, substituteFrom_mark ho (by decide), hdigits,
      substituteFrom_mark he (by decide)]
    simp only [List.append_assoc]
  | @quoted opening cs closing body text quote hq ho ht hc he =>
    have hquoted : substituteFrom item accessor false (cs ++ (closing ++ rest)) =
        cs ++ substituteFrom item accessor false (closing ++ rest) :=
      substituteFrom_padded hc fun vs _ => substituteFrom_quoted hq ht _
    rw [List.append_assoc, List.append_assoc, substituteFrom_mark ho (by decide), hquoted,
      substituteFrom_mark he (by decide)]
    simp only [List.append_assoc]

theorem substituteFrom_members {ms rest : List Char} {segments : List Segment}
    (h : Members ms segments) (hr : Stops isNameChar rest) :
    substituteFrom item accessor false (ms ++ rest) =
      ms ++ substituteFrom item accessor false rest := by
  induction h with
  | nil => rfl
  | @cons cs ms s segments hm hms ih =>
    rw [List.append_assoc, substituteFrom_member hm (hms.stops hr), ih, List.append_assoc]

/-- What follows the head of an expression is left alone. -/
theorem substituteFrom_tail {cs : List Char} {segments : List Segment} {call : Bool}
    (h : Tail cs segments call) : substituteFrom item accessor false cs = cs := by
  obtain ⟨ms, suffix, hms, hc, rfl⟩ := h
  cases hc with
  | none => rw [substituteFrom_members hms (stops_nil _), substituteFrom_nil]
  | @call opening closing ho hc =>
    have hclosing : substituteFrom item accessor false (closing ++ []) =
        closing ++ substituteFrom item accessor false [] := substituteFrom_mark hc (by decide) []
    rw [List.append_nil, substituteFrom_nil, List.append_nil] at hclosing
    rw [substituteFrom_members hms (padded_stops ho rfl closing), substituteFrom_mark ho (by decide),
      hclosing]

/-- The text of an expression before and after the substitution: only the head can change, and it
does if it is the item. -/
theorem exists_substitute_eq {cs : List Char} {path : Path} {call : Bool} (h : Spells cs path call)
    (hitem : IsItemName item) (accessor : List Char) : ∃ us name vs rest segments, Blank us ∧
      Blank vs ∧ IsName name ∧ Tail rest segments call ∧ path = .field (String.ofList name) :: segments ∧
      cs = us ++ name ++ (vs ++ rest) ∧
      substitute item accessor cs =
        us ++ (if name = item then accessor else name) ++ (vs ++ rest) := by
  obtain ⟨name, first, rest, segments, hn, ⟨us, vs, hu, hv, rfl⟩, ht, rfl, rfl⟩ := h
  refine ⟨us, name, vs, rest, segments, hu, hv, hn, ht, rfl, by simp, ?_⟩
  have hstop : Stops isNameChar (vs ++ rest) :=
    hv.stops (fun _ => isNameChar_eq_false_of_isBlank) ht.stops
  unfold substitute
  rw [List.append_assoc, List.append_assoc, substituteFrom_blank hu,
    substituteFrom_name hn hitem hstop, substituteFrom_blank hv, substituteFrom_tail ht]
  simp only [List.append_assoc]

/-- An expression in the place of a head: its path comes first, then the members of the other
one. -/
theorem readParts_accessor {us vs rest : List Char} {head : String} {front segments : List Segment}
    {call : Bool} (hu : Blank us) (hv : Blank vs)
    (ha : Spells accessor (.field head :: front) false) (ht : Tail rest segments call) :
    readParts (us ++ accessor ++ (vs ++ rest)) = .ok (head, front ++ segments, call) := by
  obtain ⟨name, first, tail, segments', hn, ⟨us', vs', hu', hv', rfl⟩, ⟨ms, suffix, hms, hc, rfl⟩,
    rfl, hpath⟩ := ha
  cases hc
  cases hpath
  have hrest : Stops isNameChar (vs ++ rest) :=
    hv.stops (fun _ => isNameChar_eq_false_of_isBlank) ht.stops
  have hstop : Stops isNameChar (vs' ++ (ms ++ (vs ++ rest))) :=
    hv'.stops (fun _ => isNameChar_eq_false_of_isBlank) (hms.stops hrest)
  have htail : readTail (vs' ++ (ms ++ (vs ++ rest))) = .ok (front ++ segments, call) :=
    readTail_append_blank (skipBlank_append hv' _) (readTail_members hms hrest
      (readTail_append_blank (skipBlank_append hv rest) (readTail_complete ht)))
  have hname := readName_complete (hu.append hu') hn hstop
  have htext : us ++ (us' ++ name ++ vs' ++ (ms ++ [])) ++ (vs ++ rest) =
      us ++ us' ++ name ++ (vs' ++ (ms ++ (vs ++ rest))) := by
    simp only [List.append_assoc, List.append_nil]
  unfold readParts
  rw [htext, hname]
  simp only [htail]

/-! ## What the new expression means -/

/-- An expression whose head stands for a value evaluates to the member of that value. -/
theorem evaluate_standing {S : Type} {e : Expression} (hcall : e.isCall = false) (names : Names S)
    (v : Value) (s : S) :
    e.evaluate (names.standing e.head v) s = .done ((v.at? e.tail).getD .null) s := by
  have hlookup : (names.standing e.head v).lookup e.head = pure (some v) := if_pos rfl
  unfold evaluate
  rw [if_neg (by simp [hcall]), hlookup]
  rfl

/-- A name that is not the head does not matter to an expression. -/
theorem evaluate_standing_of_ne {S : Type} {e : Expression} (hcall : e.isCall = false)
    {names : Names S} {name : String} (hne : e.head ≠ name) (v : Value) :
    e.evaluate (names.standing name v) = e.evaluate names := by
  have hlookup : (names.standing name v).lookup e.head = names.lookup e.head := if_neg hne
  unfold evaluate
  rw [if_neg (by simp [hcall]), if_neg (by simp [hcall]), hlookup]

/-- Substitution makes an expression of an expression, with the same call. If the head is the item,
the path of the accessor takes its place in the path; if it is not, the text is unchanged. So an
expression that is no call evaluates, after the substitution, to what it evaluates to where the item
stands for the value at the path of the accessor. -/
theorem read_substituteText {source item accessor : String} {e a : Expression}
    (he : read source = .ok e) (hitem : IsItemName item.toList) (ha : read accessor = .ok a)
    (hcall : a.isCall = false) :
    ∃ e', read (substituteText source item accessor) = .ok e' ∧ e'.isCall = e.isCall ∧
      (e.head = item → e'.path = a.path ++ e.path.tail) ∧
      (e.head ≠ item → substituteText source item accessor = source) ∧
      (e.isCall = false → ∀ data : Value, e'.evaluate Scope.plain.toNames data =
        e.evaluate (Scope.plain.toNames.standing item ((data.at? a.path).getD .null)) data) := by
  obtain ⟨hspells, -⟩ := (read_spells source e).mp he
  obtain ⟨haccessor, -⟩ := (read_spells accessor a).mp ha
  obtain ⟨us, name, vs, rest, segments, hu, hv, hn, ht, hpath, hbefore, hafter⟩ :=
    exists_substitute_eq hspells hitem accessor.toList
  obtain ⟨hhead, rfl⟩ : e.head = String.ofList name ∧ e.tail = segments := by
    simpa [path] using hpath
  by_cases heq : name = item.toList
  · have heq' : e.head = item := by rw [hhead, heq, String.ofList_toList]
    rw [if_pos heq] at hafter
    rw [hcall] at haccessor
    have hparts := readParts_accessor hu hv haccessor ht
    rw [← hafter] at hparts
    let e' : Expression :=
      ⟨trimmed (substituteText source item accessor), a.head, a.tail ++ e.tail, e.isCall⟩
    have hread : read (substituteText source item accessor) = .ok e' := by
      refine (read_spells _ e').mpr ⟨?_, rfl⟩
      rw [substituteText, String.toList_ofList]
      exact readParts_sound hparts
    refine ⟨e', hread, rfl, fun _ => rfl, fun hne => absurd heq' hne, fun hplain data => ?_⟩
    have hvalue : data.at? e'.path = (data.at? a.path).bind fun v => v.at? e.tail :=
      Value.at?_append data a.path e.tail
    rw [evaluate_plain hread hplain, ← heq', evaluate_standing hplain, hvalue]
    cases data.at? a.path with
    | some v => rfl
    | none =>
      rw [Option.bind_none, Option.getD_none, Value.getD_at?_null]
  · have hne : e.head ≠ item := by
      rintro rfl
      rw [hhead, String.toList_ofList] at heq
      exact heq rfl
    rw [if_neg heq, ← hbefore] at hafter
    have hsame : substituteText source item accessor = source := by
      rw [substituteText, hafter, String.ofList_toList]
    rw [hsame]
    refine ⟨e, he, rfl, fun heq' => absurd heq' hne, fun _ => rfl, fun hplain data => ?_⟩
    rw [evaluate_standing_of_ne hplain hne]

/-- Neither a member's name nor a quoted text is taken for the item. -/
theorem read_substituteText_fruit : ∃ e',
    read (substituteText " fruit . fruit['it\\'s fruit'] " "fruit" "fruits[0]") = .ok e' ∧
      e'.path = [.field "fruits", .index 0, .field "fruit", .field "it's fruit"] := by
  have he : read " fruit . fruit['it\\'s fruit'] " = .ok ⟨"fruit . fruit['it\\'s fruit']", "fruit",
      [.field "fruit", .field "it's fruit"], false⟩ := eq_ok_of_toOption (by decide +kernel)
  have ha : read "fruits[0]" = .ok ⟨"fruits[0]", "fruits", [.index 0], false⟩ :=
    eq_ok_of_toOption (by decide +kernel)
  have hchars : "fruit".toList = ['f', 'r', 'u', 'i', 't'] := rfl
  have hitem : IsItemName "fruit".toList := by
    rw [hchars]
    refine ⟨⟨nofun, ?_, ?_⟩, ?_⟩
    · simp only [List.forall_mem_cons]
      exact ⟨rfl, rfl, rfl, rfl, rfl, nofun⟩
    · rintro c rest ⟨⟩
      rfl
    · rintro c rest ⟨⟩
      rfl
  obtain ⟨e', hread, -, hpath, -⟩ := read_substituteText he hitem ha rfl
  exact ⟨e', hread, hpath rfl⟩

end Template

end ReactiveView
