import ReactiveView.Proofs.Expression.Grammar
/-!
# Where reading fails

A failure of the reader lies just past the longest front of the text that could still have become an
expression: something can follow that front, but not the character that does. Only two failures name
the start of a token instead, a quoted text without an end and an index that is too large, since
there the fault shows at its end at the earliest.

Each reader fails exactly in this sense. A reader that has taken something is done in the same way
whatever follows, as long as a name or a run of digits that it took still ends there; so a failure
further on is exact for the whole if it is exact for the reader that failed.

Results:
* `readName_at`, `expect_at`, `readBracket_at`, `next_at`: what is taken is taken in front of
  another text, too.
* `readName_exact`, `expect_exact`, `readBracket_exact`, `next_exact`, `readTail_exact`: each reader
  fails exactly.
* `read_error_exact`: the place of the error of a whole text.
-/
namespace ReactiveView

namespace Text

/-- Whether a text stops a class depends on its first character only. -/
theorem Stops.of_front {p : Char → Bool} {front rest rest' : List Char} {c : Char}
    (h : Stops p (front ++ c :: rest)) : Stops p (front ++ c :: rest') := by
  cases front with
  | nil => exact stops_cons (h c rest rfl) rest'
  | cons d front => exact stops_cons (h d _ rfl) _

end Text

namespace Expression

open Text

/-- Whether a failure names the start of the token that is wrong. -/
def isEarly (f : Failure) : Prop := f.message = "Unterminated string" ∨ f.message = "Invalid index"

/-- A failure of a reader just past a front: there is a way for the text to go on from the front, to
the end of what is read, but none with the character that was found there. -/
structure Exact {α : Type} (read : List Char → Except Failure α) (ended : α → Prop)
    (front : List Char) (f : Failure) : Prop where
  goes : ∃ more a, read (front ++ more) = .ok a ∧ ended a
  stuck : ¬isEarly f → ∀ c rest, f.rest = c :: rest →
    ∀ more, ∃ g, read (front ++ c :: more) = .error g

section

variable {α β : Type} {read : List Char → Except Failure α} {ended : α → Prop}
  {whole : List Char → Except Failure β} {ended' : β → Prop} {front taken : List Char} {f : Failure}

/-- A failure of a reader is one of the whole that the reader is a part of, if the whole goes on
from what was taken before as the reader does. -/
theorem Exact.of_part (h : Exact read ended front f)
    (hgoes : ∀ w a, read w = .ok a → ended a → ∃ b, whole (taken ++ w) = .ok b ∧ ended' b)
    (hstuck : ∀ c rest more, f.rest = c :: rest →
      (∃ g, read (front ++ c :: more) = .error g) →
      ∃ g, whole (taken ++ (front ++ c :: more)) = .error g) :
    Exact whole ended' (taken ++ front) f where
  goes := by
    obtain ⟨more, a, hread, ha⟩ := h.goes
    obtain ⟨b, hb, hended⟩ := hgoes _ a hread ha
    exact ⟨more, b, by rw [List.append_assoc, hb], hended⟩
  stuck hearly c rest hrest more := by
    rw [List.append_assoc]
    exact hstuck c rest more hrest (h.stuck hearly c rest hrest more)

/-- What a reader passes over at its start may stand in front. -/
theorem Exact.of_passed (h : Exact read ended front f) (hpass : ∀ w, read (taken ++ w) = read w) :
    Exact read ended (taken ++ front) f :=
  h.of_part (fun w a hw ha => ⟨a, (hpass w).trans hw, ha⟩)
    fun _ _ _ _ hstuck => hstuck.imp fun _ hg => (hpass _).trans hg

/-- A failure at the first character, which is no better in front of another text. -/
theorem exact_nil (hgoes : ∃ more a, read more = .ok a ∧ ended a)
    (hstuck : ∀ c rest, f.rest = c :: rest → ∀ more, ∃ g, read (c :: more) = .error g) :
    Exact read ended [] f :=
  ⟨hgoes, fun _ => hstuck⟩

/-- A failure at the first character after blanks. -/
theorem Exact.of_blank {cs : List Char} (h : Exact read ended [] f) (hcs : skipBlank cs = f.rest)
    (hpass : ∀ us w, Blank us → read (us ++ w) = read w) :
    ∃ us, Blank us ∧ cs = us ++ f.rest ∧ Exact read ended us f := by
  obtain ⟨us, hu, heq⟩ := exists_blank_append_skipBlank cs
  have hexact := h.of_passed fun w => hpass us w hu
  rw [List.append_nil] at hexact
  exact ⟨us, hu, by rw [← hcs, ← heq], hexact⟩

end

/-! ## Names -/

/-- A name that was taken is taken in front of everything that does not lengthen it. -/
theorem readName_at {cs rest : List Char} {name : String} (h : readName cs = .ok (name, rest)) :
    ∃ taken, cs = taken ++ rest ∧ Stops isNameChar rest ∧
      ∀ w, Stops isNameChar w → readName (taken ++ w) = .ok (name, w) := by
  obtain ⟨us, hu, hcs⟩ := exists_blank_append_skipBlank cs
  unfold readName at h
  split at h
  · cases h
  · next c more heq =>
    split at h
    · cases h
    · next hd =>
      split at h
      · next hn =>
        cases h
        have htoken : IsName (c :: more.takeWhile isNameChar) := by
          refine ⟨by simp, fun d hd' => ?_, fun d ds heq' => ?_⟩
          · rcases List.mem_cons.mp hd' with rfl | hm
            · exact hn
            · exact List.all_eq_true.mp (List.all_takeWhile (p := isNameChar) (l := more)) d hm
          · cases heq'
            simpa using hd
        refine ⟨us ++ (c :: more.takeWhile isNameChar), ?_, stops_dropWhile _ _,
          fun w hw => readName_complete hu htoken hw⟩
        rw [List.append_assoc, List.cons_append, List.takeWhile_append_dropWhile, ← heq]
        exact hcs
      · cases h

theorem readName_append_blank {us : List Char} (hu : Blank us) (w : List Char) :
    readName (us ++ w) = readName w := by
  rw [readName, readName, skipBlank_append hu]

/-- A name that is missing could have stood where the blanks end. -/
theorem readName_exact {cs : List Char} {f : Failure} (h : readName cs = .error f) :
    ∃ us, Blank us ∧ cs = us ++ f.rest ∧ Exact readName (fun r => r.2 = []) us f := by
  have hgoes : ∃ more a, readName more = .ok a ∧ a.2 = [] := ⟨['a'], ("a", []), rfl, rfl⟩
  suffices hexact : Exact readName (fun r => r.2 = []) [] f ∧ skipBlank cs = f.rest from
    hexact.1.of_blank hexact.2 fun _ w hu => readName_append_blank hu w
  unfold readName at h
  split at h
  · next heq =>
    cases h
    exact ⟨exact_nil hgoes fun c rest hrest => (by cases hrest), heq⟩
  · next c rest heq =>
    have hb := not_isBlank_of_skipBlank heq
    split at h
    · next hd =>
      cases h
      refine ⟨exact_nil hgoes fun c' rest' hrest more => ?_, heq⟩
      cases hrest
      simp [readName, skipBlank_cons hb, hd]
    · next hd =>
      split at h
      · cases h
      · next hn =>
        cases h
        refine ⟨exact_nil hgoes fun c' rest' hrest more => ?_, heq⟩
        cases hrest
        simp [readName, skipBlank_cons hb, hd, hn]

/-! ## Marks -/

/-- A mark that was taken stood behind blanks. -/
theorem expect_at {mark : Char} {cs rest : List Char} (h : expect mark cs = .ok rest) :
    ∃ us, Blank us ∧ cs = us ++ mark :: rest := by
  obtain ⟨us, hu, hcs⟩ := exists_blank_append_skipBlank cs
  unfold expect at h
  split at h
  · cases h
  · next c more heq =>
    split at h
    · next hc =>
      cases h
      exact ⟨us, hu, by rw [← hc, ← heq]; exact hcs⟩
    · cases h

/-- A mark that is missing could have stood where the blanks end. -/
theorem expect_exact {mark : Char} {cs : List Char} {f : Failure} (hm : isBlank mark = false)
    (h : expect mark cs = .error f) :
    ∃ us, Blank us ∧ cs = us ++ f.rest ∧ Exact (expect mark) (· = []) us f := by
  have hgoes : ∃ more a, expect mark more = .ok a ∧ a = [] :=
    ⟨[mark], [], expect_complete mark blank_nil hm [], rfl⟩
  suffices hexact : Exact (expect mark) (· = []) [] f ∧ skipBlank cs = f.rest from
    hexact.1.of_blank hexact.2 fun us w hu => by rw [expect, expect, skipBlank_append hu]
  unfold expect at h
  split at h
  · next heq =>
    cases h
    exact ⟨exact_nil hgoes fun c rest hrest => (by cases hrest), heq⟩
  · next c rest heq =>
    split at h
    · cases h
    · next hc =>
      cases h
      refine ⟨exact_nil hgoes fun c' rest' hrest more => ?_, heq⟩
      cases hrest
      simp [expect, skipBlank_cons (not_isBlank_of_skipBlank heq), hc]

/-! ## Brackets -/

theorem stops_of_expect {p : Char → Bool} {mark : Char} {w after : List Char}
    (hp : ∀ c, isBlank c → p c = false) (hm : p mark = false) (h : expect mark w = .ok after) :
    Stops p w := by
  obtain ⟨us, hu, rfl⟩ := expect_at h
  exact hu.stops hp (stops_cons hm after)

theorem takeWhile_isIndex {c : Char} {more : List Char} {n : Nat} (hc : isDigit c)
    (h : numeral 10 indexLimit (c :: more.takeWhile isDigit) = some n) :
    IsIndex (c :: more.takeWhile isDigit) n := by
  refine (numeral_eq_some_iff (fun d hm => ?_) (by simp)).mp h
  rcases List.mem_cons.mp hm with rfl | hm
  · exact hc
  · exact List.all_eq_true.mp (List.all_takeWhile (p := isDigit) (l := more)) d hm

/-- A bracket is wrong before its end, or it holds something and all that counts is the closing
bracket. What it holds is the same in front of another text, if digits are not continued by it. -/
theorem readBracket_cases (cs : List Char) :
    (∃ held rest s, cs = held ++ rest ∧
      ∀ w, (Stops isDigit rest → Stops isDigit w) →
        readBracket (held ++ w) = (expect ']' w).map (Prod.mk s)) ∨
    ∃ front f, cs = front ++ f.rest ∧ readBracket cs = .error f ∧
      Exact readBracket (fun r => r.2 = []) front f := by
  have hgoes : ∃ more a, readBracket more = .ok a ∧ a.2 = [] :=
    ⟨['0', ']'], (.index 0, []), rfl, rfl⟩
  cases cs with
  | nil => exact .inr ⟨[], _, rfl, rfl, exact_nil hgoes fun c rest hrest => by cases hrest⟩
  | cons c rest =>
    by_cases hq : c = '\'' ∨ c = '"'
    · cases htext : quotedText c rest with
      | none =>
        have hread := readBracket_text hq .nil [']']
        refine .inr ⟨[c], ⟨"Unterminated string", rest⟩, rfl, ?_, ?_, ?_⟩
        · simp only [readBracket, hq, if_true, htext]
        · exact ⟨[c, ']'], (.field "", []), hread, rfl⟩
        · exact fun hearly => absurd (.inl rfl) hearly
      | some parts =>
        obtain ⟨body, hbody, hrest⟩ := quotedText_sound htext
        refine .inl ⟨c :: body ++ [c], parts.2, .field (String.ofList parts.1), by simp [hrest],
          fun w _ => ?_⟩
        rw [List.append_assoc]
        exact readBracket_text hq hbody w
    · by_cases hd : isDigit c
      · cases hn : numeral 10 indexLimit (c :: rest.takeWhile isDigit) with
        | none =>
          refine .inr ⟨[], ⟨"Invalid index", c :: rest⟩, rfl, ?_, hgoes, ?_⟩
          · simp only [readBracket, hq, hd, if_true, if_false, hn]
          · exact fun hearly => absurd (.inr rfl) hearly
        | some n =>
          refine .inl ⟨c :: rest.takeWhile isDigit, rest.dropWhile isDigit, .index n, by simp,
            fun w hw => ?_⟩
          exact readBracket_digits (takeWhile_isIndex hd hn) (hw (stops_dropWhile isDigit rest))
      · have hfails : ∀ more, readBracket (c :: more)
            = .error ⟨"Invalid bracket expression", c :: more⟩ := fun more => by
          simp [readBracket, hq, hd]
        refine .inr ⟨[], _, rfl, hfails rest, exact_nil hgoes fun c' rest' hrest more => ?_⟩
        cases hrest
        exact ⟨_, hfails more⟩

/-- What is in brackets is taken in front of everything. -/
theorem readBracket_at {cs rest : List Char} {s : Segment} (h : readBracket cs = .ok (s, rest)) :
    ∃ taken, cs = taken ++ rest ∧ ∀ w, readBracket (taken ++ w) = .ok (s, w) := by
  rcases readBracket_cases cs with ⟨held, more, t, rfl, hread⟩ | ⟨front, f, -, hf, -⟩
  · have hexpect := hread more id
    rw [h] at hexpect
    cases hclose : expect ']' more with
    | error e =>
      rw [hclose] at hexpect
      cases hexpect
    | ok after =>
      rw [hclose] at hexpect
      cases hexpect
      obtain ⟨us, hu, rfl⟩ := expect_at hclose
      refine ⟨held ++ (us ++ [']']), by simp, fun w => ?_⟩
      have hw := hread (us ++ ']' :: w) fun hstop => by
        exact hu.stops (fun _ => isDigit_eq_false_of_isBlank) (stops_cons (by decide) w)
      rw [expect_complete ']' hu (by decide)] at hw
      rw [List.append_assoc, List.append_assoc]
      exact hw
  · rw [h] at hf
    cases hf

/-- A bracket goes wrong at the first character that it cannot hold. -/
theorem readBracket_exact {cs : List Char} {f : Failure} (h : readBracket cs = .error f) :
    ∃ front, cs = front ++ f.rest ∧ Exact readBracket (fun r => r.2 = []) front f := by
  rcases readBracket_cases cs with ⟨held, more, s, rfl, hread⟩ | ⟨front, g, hcs, hg, hexact⟩
  · have hexpect := hread more id
    rw [h] at hexpect
    cases hclose : expect ']' more with
    | ok after =>
      rw [hclose] at hexpect
      cases hexpect
    | error e =>
      rw [hclose] at hexpect
      cases hexpect
      obtain ⟨us, hu, rfl, hexact⟩ := expect_exact (by decide) hclose
      refine ⟨held ++ us, by simp, hexact.of_part (fun w a hw ha => ⟨(s, a), ?_, ha⟩)
        fun c rest more hrest hstuck => hstuck.imp fun g hg => ?_⟩
      · have hstop := stops_of_expect (fun _ => isDigit_eq_false_of_isBlank) (by decide) hw
        rw [hread w fun _ => hstop, hw]
        rfl
      · rw [hread _ fun hstop => Stops.of_front (hrest ▸ hstop), hg]
        rfl
  · rw [h] at hg
    cases hg
    exact ⟨front, hcs, hexact⟩

/-! ## Members and the end -/

/-- Whether nothing is left after a member, or the end is there. -/
def Next.isLast : Next → Prop
  | .member _ rest => rest = []
  | .finish _ => True

theorem next_append_blank {us : List Char} (hu : Blank us) (w : List Char) :
    next (us ++ w) = next w := by
  rw [← next_skipBlank (us ++ w), skipBlank_append hu, next_skipBlank]

theorem next_point (w : List Char) :
    next ('.' :: w) = (readName w).map fun r => .member (.field r.1) r.2 := by
  unfold next
  rw [skipBlank_cons (by decide)]
  simp only [if_true]
  cases readName w <;> rfl

theorem next_bracket (w : List Char) :
    next ('[' :: w) = (readBracket (skipBlank w)).map fun r => .member r.1 r.2 := by
  unfold next
  rw [skipBlank_cons (by decide)]
  simp only [show ('[' = '.') = False by simp, if_true, if_false]
  cases readBracket (skipBlank w) <;> rfl

/-- What may stand after a call: blanks only. -/
def readEnd (w : List Char) : Except Failure Next :=
  match skipBlank w with
  | [] => .ok (.finish true)
  | d :: more => .error ⟨"Unexpected '" ++ d.toString ++ "' after call", d :: more⟩

theorem next_opening (w : List Char) : next ('(' :: w) = (expect ')' w).bind readEnd := by
  unfold next
  rw [skipBlank_cons (by decide)]
  simp only [show ('(' = '.') = False by simp, show ('(' = '[') = False by simp, if_true, if_false]
  cases expect ')' w with
  | error f => rfl
  | ok after =>
    cases hafter : skipBlank after <;> simp only [Except.bind, readEnd, hafter]

/-- A text that starts with none of the marks ends the expression before it. -/
theorem next_other {c : Char} (hc : isBlank c = false) (hp : c ≠ '.') (hb : c ≠ '[') (ho : c ≠ '(')
    (w : List Char) : next (c :: w) = .error ⟨"Unexpected '" ++ c.toString ++ "'", c :: w⟩ := by
  unfold next
  rw [skipBlank_cons hc]
  simp only [hp, hb, ho, if_false]

/-- What the next step of reading finds behind blanks. -/
inductive Start : List Char → Prop
  | nil : Start []
  | point (w : List Char) : Start ('.' :: w)
  | bracket (w : List Char) : Start ('[' :: w)
  | opening (w : List Char) : Start ('(' :: w)
  | other {c : Char} (hc : isBlank c = false) (hp : c ≠ '.') (hb : c ≠ '[') (ho : c ≠ '(')
      (w : List Char) : Start (c :: w)

theorem start_skipBlank (cs : List Char) : Start (skipBlank cs) := by
  cases h : skipBlank cs with
  | nil => exact .nil
  | cons c w =>
    by_cases hp : c = '.'
    · subst hp
      exact .point w
    by_cases hb : c = '['
    · subst hb
      exact .bracket w
    by_cases ho : c = '('
    · subst ho
      exact .opening w
    exact .other (not_isBlank_of_skipBlank h) hp hb ho w

/-- Brackets never start with a blank. -/
theorem skipBlank_of_readBracket {w rest : List Char} {s : Segment}
    (h : readBracket w = .ok (s, rest)) : skipBlank w = w := by
  cases w with
  | nil => rfl
  | cons c w =>
    refine skipBlank_cons ?_ w
    by_cases hq : c = '\'' ∨ c = '"'
    · rcases hq with rfl | rfl <;> rfl
    · by_cases hd : isDigit c
      · exact isBlank_eq_false_of_isDigit hd
      · simp [readBracket, hq, hd] at h

/-- A member that was taken is taken in front of everything that does not lengthen a name. -/
theorem next_at {cs rest : List Char} {s : Segment} (h : next cs = .ok (.member s rest)) :
    ∃ taken, cs = taken ++ rest ∧ ∀ w, (Stops isNameChar rest → Stops isNameChar w) →
      next (taken ++ w) = .ok (.member s w) := by
  obtain ⟨us, hu, hcs⟩ := exists_blank_append_skipBlank cs
  suffices htaken : ∃ taken, skipBlank cs = taken ++ rest ∧
      ∀ w, (Stops isNameChar rest → Stops isNameChar w) → next (taken ++ w) = .ok (.member s w) by
    obtain ⟨taken, heq, hread⟩ := htaken
    refine ⟨us ++ taken, by rw [List.append_assoc, ← heq, ← hcs], fun w hw => ?_⟩
    rw [List.append_assoc, next_append_blank hu, hread w hw]
  rw [← next_skipBlank] at h
  have hstart := start_skipBlank cs
  generalize skipBlank cs = ds at h hstart
  cases hstart with
  | nil => cases h
  | point more =>
    rw [next_point] at h
    obtain ⟨r, hname, heq⟩ := map_eq_ok h
    cases heq
    obtain ⟨taken, rfl, hstop, hread⟩ := readName_at hname
    refine ⟨'.' :: taken, rfl, fun w hw => ?_⟩
    rw [List.cons_append, next_point, hread w (hw hstop)]
    rfl
  | bracket more =>
    rw [next_bracket] at h
    obtain ⟨r, hbracket, heq⟩ := map_eq_ok h
    cases heq
    obtain ⟨taken, heq, hread⟩ := readBracket_at hbracket
    obtain ⟨vs, hv, hmore⟩ := exists_blank_append_skipBlank more
    refine ⟨'[' :: (vs ++ taken), ?_, fun w _ => ?_⟩
    · rw [List.cons_append, List.append_assoc, ← heq, ← hmore]
    · rw [List.cons_append, next_bracket, List.append_assoc, skipBlank_append hv,
        skipBlank_of_readBracket (hread w), hread w]
      rfl
  | opening more =>
    rw [next_opening] at h
    cases hclose : expect ')' more with
    | error f =>
      rw [hclose] at h
      cases h
    | ok after =>
      rw [hclose] at h
      simp only [Except.bind, readEnd] at h
      split at h <;> cases h
  | other hc hp hb ho w =>
    rw [next_other hc hp hb ho] at h
    cases h

theorem readEnd_exact {cs : List Char} {f : Failure} (h : readEnd cs = .error f) :
    ∃ us, Blank us ∧ cs = us ++ f.rest ∧ Exact readEnd Next.isLast us f := by
  suffices hexact : Exact readEnd Next.isLast [] f ∧ skipBlank cs = f.rest from
    hexact.1.of_blank hexact.2 fun us w hu => by rw [readEnd, readEnd, skipBlank_append hu]
  unfold readEnd at h
  split at h
  · cases h
  · next d more heq =>
    cases h
    refine ⟨exact_nil ⟨[], .finish true, rfl, trivial⟩ fun c rest hrest more => ?_, heq⟩
    cases hrest
    simp [readEnd, skipBlank_cons (not_isBlank_of_skipBlank heq)]

/-- The next step goes wrong where the part goes wrong that its first character asks for. -/
theorem next_exact {cs : List Char} {f : Failure} (h : next cs = .error f) :
    ∃ front, cs = front ++ f.rest ∧ Exact next Next.isLast front f := by
  obtain ⟨us, hu, hcs⟩ := exists_blank_append_skipBlank cs
  suffices hfails : ∃ front, skipBlank cs = front ++ f.rest ∧ Exact next Next.isLast front f by
    obtain ⟨front, heq, hexact⟩ := hfails
    exact ⟨us ++ front, by rw [List.append_assoc, ← heq, ← hcs],
      hexact.of_passed (next_append_blank hu)⟩
  rw [← next_skipBlank] at h
  have hstart := start_skipBlank cs
  generalize skipBlank cs = ds at h hstart
  cases hstart with
  | nil => cases h
  | point more =>
    rw [next_point] at h
    obtain ⟨us, -, rfl, hexact⟩ := readName_exact (map_eq_error h)
    refine ⟨['.'] ++ us, rfl, hexact.of_part (fun w r hw hr => ⟨.member (.field r.1) r.2, ?_, hr⟩)
      fun c rest more _ hstuck => hstuck.imp fun g hg => ?_⟩
    · rw [List.singleton_append, next_point, hw]
      rfl
    · rw [List.singleton_append, next_point, hg]
      rfl
  | bracket more =>
    rw [next_bracket] at h
    obtain ⟨front, heq, hexact⟩ := readBracket_exact (map_eq_error h)
    obtain ⟨vs, hv, hmore⟩ := exists_blank_append_skipBlank more
    have hstop : Stops isBlank (front ++ f.rest) := heq ▸ stops_dropWhile isBlank more
    have hpass : ∀ w, skipBlank w = w → next ('[' :: vs ++ w)
        = (readBracket w).map fun r => .member r.1 r.2 := fun w hw => by
      rw [List.cons_append, next_bracket, skipBlank_append hv, hw]
    refine ⟨'[' :: vs ++ front, by rw [List.append_assoc, ← heq, List.cons_append, ← hmore],
      hexact.of_part (fun w r hw hr => ⟨.member r.1 r.2, ?_, hr⟩)
        fun c rest more hrest hstuck => hstuck.imp fun g hg => ?_⟩
    · rw [hpass w (skipBlank_of_readBracket hw), hw]
      rfl
    · rw [hpass _ (Stops.of_front (hrest ▸ hstop)).skipBlank_eq, hg]
      rfl
  | opening more =>
    rw [next_opening] at h
    cases hclose : expect ')' more with
    | error e =>
      rw [hclose] at h
      cases h
      obtain ⟨us, -, rfl, hexact⟩ := expect_exact (by decide) hclose
      refine ⟨['('] ++ us, rfl,
        hexact.of_part (fun w after hw hafter => ⟨.finish true, ?_, trivial⟩)
        fun c rest more _ hstuck => hstuck.imp fun g hg => ?_⟩
      · rw [List.singleton_append, next_opening, hw, hafter]
        rfl
      · rw [List.singleton_append, next_opening, hg]
        rfl
    | ok after =>
      rw [hclose] at h
      obtain ⟨vs, hv, rfl⟩ := expect_at hclose
      obtain ⟨us, -, rfl, hexact⟩ := readEnd_exact h
      have hpass : ∀ w, next ('(' :: vs ++ [')'] ++ w) = readEnd w := fun w => by
        rw [List.append_assoc, List.cons_append, next_opening]
        simp [expect_complete ')' hv (by decide), Except.bind]
      refine ⟨'(' :: vs ++ [')'] ++ us, by simp, hexact.of_part
        (fun w step hw hstep => ⟨step, (hpass w).trans hw, hstep⟩)
        fun c rest more _ hstuck => hstuck.imp fun _ hg => (hpass _).trans hg⟩
  | @other c hc hp hb ho w =>
    have hfails := next_other hc hp hb ho
    rw [hfails] at h
    cases h
    refine ⟨[], rfl, exact_nil ⟨[], .finish false, rfl, trivial⟩ fun c' rest hrest more => ?_⟩
    cases hrest
    exact ⟨_, hfails more⟩

/-! ## Whole texts -/

theorem readTail_eq_of_error {cs : List Char} {f : Failure} (h : next cs = .error f) :
    readTail cs = .error f := by
  unfold readTail
  split <;> simp_all

theorem readTail_eq_of_error_of_member {cs rest : List Char} {s : Segment} {f : Failure}
    (h : next cs = .ok (.member s rest)) (hr : readTail rest = .error f) :
    readTail cs = .error f := by
  unfold readTail
  split
  · simp_all
  · simp_all
  · next s' rest' h' =>
    rw [h] at h'
    cases h'
    rw [hr]

/-- What is read as a tail does not lengthen a name. -/
theorem stops_of_readTail {cs : List Char} {segments : List Segment} {call : Bool}
    (h : readTail cs = .ok (segments, call)) : Stops isNameChar cs := by
  obtain ⟨us, hu, hcs⟩ := exists_blank_append_skipBlank cs
  rw [hcs]
  exact hu.stops (fun _ => isNameChar_eq_false_of_isBlank) (readTail_sound h).stops

/-- A tail goes wrong where one of its members does. -/
theorem readTail_exact {cs : List Char} {f : Failure} (h : readTail cs = .error f) :
    ∃ front, cs = front ++ f.rest ∧ Exact readTail (fun _ => True) front f := by
  fun_induction readTail cs generalizing f with
  | case1 cs g hn =>
    cases h
    obtain ⟨front, hcs, hexact⟩ := next_exact hn
    refine ⟨front, hcs, ?_, fun hearly c rest hrest more => ?_⟩
    · obtain ⟨more, step, hstep, hlast⟩ := hexact.goes
      cases step with
      | finish call => exact ⟨more, ([], call), readTail_eq_of_finish hstep, trivial⟩
      | member s rest =>
        obtain rfl : rest = [] := hlast
        have hnil : readTail [] = .ok ([], false) := readTail_eq_of_finish rfl
        exact ⟨more, ([s], false), readTail_eq_of_member hstep hnil, trivial⟩
    · obtain ⟨g, hg⟩ := hexact.stuck hearly c rest hrest more
      exact ⟨g, readTail_eq_of_error hg⟩
  | case2 => cases h
  | case3 cs s rest hn hlt g hr ih =>
    cases h
    obtain ⟨front, rfl, hexact⟩ := ih hr
    obtain ⟨taken, rfl, hread⟩ := next_at hn
    refine ⟨taken ++ front, by rw [List.append_assoc], hexact.of_part
      (fun w r hw _ => ⟨(s :: r.1, r.2), ?_, trivial⟩)
      fun c rest more hrest hstuck => hstuck.imp fun g hg => ?_⟩
    · exact readTail_eq_of_member (hread w fun _ => stops_of_readTail hw) hw
    · refine readTail_eq_of_error_of_member (hread _ fun hstop => ?_) hg
      exact Stops.of_front (hrest ▸ hstop)
  | case4 => cases h

/-- An expression goes wrong in its head or in its tail. -/
theorem readParts_exact {cs : List Char} {f : Failure} (h : readParts cs = .error f) :
    ∃ front, cs = front ++ f.rest ∧ Exact readParts (fun _ => True) front f := by
  unfold readParts at h
  split at h
  · next g hn =>
    cases h
    obtain ⟨us, -, rfl, hexact⟩ := readName_exact hn
    refine ⟨us, rfl, ?_, fun hearly c rest hrest more => ?_⟩
    · obtain ⟨more, r, hr, hlast⟩ := hexact.goes
      have hnil : readTail r.2 = .ok ([], false) := hlast ▸ readTail_eq_of_finish rfl
      exact ⟨more, (r.1, [], false), by simp only [readParts, hr, hnil], trivial⟩
    · obtain ⟨g, hg⟩ := hexact.stuck hearly c rest hrest more
      exact ⟨g, by simp only [readParts, hg]⟩
  · next head rest hn =>
    split at h
    · next g ht =>
      cases h
      obtain ⟨front, rfl, hexact⟩ := readTail_exact ht
      obtain ⟨taken, rfl, hstop, hread⟩ := readName_at hn
      refine ⟨taken ++ front, by rw [List.append_assoc], hexact.of_part
        (fun w r hw _ => ⟨(head, r), ?_, trivial⟩)
        fun c rest more hrest hstuck => hstuck.imp fun g hg => ?_⟩
      · simp only [readParts, hread w (stops_of_readTail hw), hw]
      · simp only [readParts, hread _ (Stops.of_front (hrest ▸ hstop)), hg]
    · cases h

/-- A text that an expression starts with. -/
def Begins (cs : List Char) : Prop := ∃ more e, read (String.ofList (cs ++ more)) = .ok e

theorem begins_iff {cs : List Char} : Begins cs ↔ ∃ more r, readParts (cs ++ more) = .ok r := by
  constructor
  · rintro ⟨more, e, he⟩
    unfold read at he
    simp only [String.toList_ofList] at he
    split at he
    · cases he
    · next hr => exact ⟨more, _, hr⟩
  · rintro ⟨more, r, hr⟩
    refine ⟨more, ⟨trimmed (String.ofList (cs ++ more)), r.1, r.2.1, r.2.2⟩, ?_⟩
    simp only [read, String.toList_ofList, hr]

/-- The error of a text that is no expression carries the text and the length in UTF-8 of a front of
it. Some expression starts with that front; and unless the message is one of two, none starts with
the front and the character that follows it in the text. -/
theorem read_error_exact {source : String} {err : Error} (h : read source = .error err) :
    ∃ message front rest, source.toList = front ++ rest ∧
      err = .parse source message (String.ofList front).utf8ByteSize ∧ Begins front ∧
      (message ≠ "Unterminated string" → message ≠ "Invalid index" →
        ∀ c after, rest = c :: after → ¬Begins (front ++ [c])) := by
  unfold read at h
  simp only at h
  split at h
  · next f hf =>
    cases h
    obtain ⟨front, hcs, hexact⟩ := readParts_exact hf
    refine ⟨f.message, front, f.rest, hcs, ?_, ?_, fun hstring hindex c after hrest hbegins => ?_⟩
    · rw [hcs, f.offset_append, utf8ByteSize_ofList]
    · obtain ⟨more, r, hr, -⟩ := hexact.goes
      exact begins_iff.mpr ⟨more, r, hr⟩
    · have hearly : ¬isEarly f := fun hearly => hearly.elim hstring hindex
      obtain ⟨more, r, hr⟩ := begins_iff.mp hbegins
      obtain ⟨g, hg⟩ := hexact.stuck hearly c after hrest more
      rw [List.append_assoc, List.singleton_append, hg] at hr
      cases hr
  · cases h

/-- After a name of two bytes and blanks, a quoted text has been read and its bracket is not closed:
the fault is at the ninth byte. -/
theorem read_error_exact_bracket :
    read "é [ 'b' x]" = .error (.parse "é [ 'b' x]" "Expected ']', found 'x'" 9) ∧
    Begins "é [ 'b' ".toList ∧ ¬Begins "é [ 'b' x".toList := by
  have hread : read "é [ 'b' x]" = .error (.parse "é [ 'b' x]" "Expected ']', found 'x'" 9) :=
    eq_error_of_errorOf? (by decide +kernel)
  obtain ⟨message, front, rest, hsource, herr, hbegins, hstuck⟩ := read_error_exact hread
  injection herr with _ hmessage hsize
  rw [utf8ByteSize_ofList] at hsize
  have hsplit : front ++ rest = "é [ 'b' ".toList ++ ['x', ']'] := by
    rw [← hsource]
    decide
  obtain rfl := eq_of_byteLength_eq hsplit (hsize.symm.trans (by decide))
  obtain rfl : rest = ['x', ']'] := List.append_cancel_left hsplit
  exact ⟨hread, hbegins, hstuck (hmessage ▸ by decide) (hmessage ▸ by decide) 'x' _ rfl⟩

end Expression

end ReactiveView
