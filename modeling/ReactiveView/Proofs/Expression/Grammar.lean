import ReactiveView.Proofs.Text.Trim
/-!
# The grammar of expressions

`Spells` says which texts are expressions, and of which parts, as a grammar over tokens: a name,
members, at most one call, with blanks around every token. It does not mention the reader.

Results:
* `readName_sound`, `next_sound`, `readTail_sound`: what is read is spelled by what was taken, up
  to the blanks that follow.
* `readName_complete`, `readTail_complete`: what is spelled is read.
* `read_eq_ok_iff_spells`: a text is read exactly if it spells an expression, and the trimmed text
  of an expression is read as the same expression.
-/
namespace ReactiveView.Expression

open Text

/-- A token with the blanks around it. -/
def Padded (token cs : List Char) : Prop :=
  ∃ us vs, Blank us ∧ Blank vs ∧ cs = us ++ token ++ vs

/-- A name: name characters, at least one, of which the first is no basic digit. -/
structure IsName (cs : List Char) : Prop where
  ne_nil : cs ≠ []
  chars : ∀ c ∈ cs, isNameChar c
  first : ∀ c rest, cs = c :: rest → isDigit c = false

/-- The digits of an index of 64 bits. -/
structure IsIndex (cs : List Char) (n : Nat) : Prop where
  ne_nil : cs ≠ []
  digits : ∀ c ∈ cs, isDigit c
  value : Nat.ofDigitChars 10 cs 0 = n
  small : n < indexLimit

/-- What stands between quotes, and the text that it means: a backslash makes the next character
literal. -/
inductive Quoted (quote : Char) : List Char → List Char → Prop
  | nil : Quoted quote [] []
  | escaped {body text : List Char} (c : Char) (h : Quoted quote body text) :
    Quoted quote ('\\' :: c :: body) (c :: text)
  | plain {body text : List Char} {c : Char} (hq : c ≠ quote) (hb : c ≠ '\\')
      (h : Quoted quote body text) :
    Quoted quote (c :: body) (c :: text)

/-- One member: `.name`, `[digits]` or a quoted text in brackets. -/
inductive Member : List Char → Segment → Prop
  | name {point cs name : List Char} (hp : Padded ['.'] point) (hn : IsName name)
      (hc : Padded name cs) :
    Member (point ++ cs) (.field (String.ofList name))
  | index {opening cs closing digits : List Char} {n : Nat} (ho : Padded ['['] opening)
      (hd : IsIndex digits n) (hc : Padded digits cs) (he : Padded [']'] closing) :
    Member (opening ++ cs ++ closing) (.index n)
  | quoted {opening cs closing body text : List Char} {quote : Char}
      (hq : quote = '\'' ∨ quote = '"') (ho : Padded ['['] opening) (ht : Quoted quote body text)
      (hc : Padded (quote :: body ++ [quote]) cs) (he : Padded [']'] closing) :
    Member (opening ++ cs ++ closing) (.field (String.ofList text))

/-- Members in a row. -/
inductive Members : List Char → List Segment → Prop
  | nil : Members [] []
  | cons {cs rest : List Char} {s : Segment} {segments : List Segment} (h : Member cs s)
      (hr : Members rest segments) :
    Members (cs ++ rest) (s :: segments)

/-- The call at the end, if there is one. -/
inductive Call : List Char → Bool → Prop
  | none : Call [] false
  | call {opening closing : List Char} (ho : Padded ['('] opening) (hc : Padded [')'] closing) :
    Call (opening ++ closing) true

/-- What may follow the head of an expression. -/
def Tail (cs : List Char) (segments : List Segment) (call : Bool) : Prop :=
  ∃ ms suffix, Members ms segments ∧ Call suffix call ∧ cs = ms ++ suffix

/-- A whole text spells the path and the call of an expression. -/
def Spells (cs : List Char) (path : Path) (call : Bool) : Prop :=
  ∃ name first rest segments, IsName name ∧ Padded name first ∧ Tail rest segments call ∧
    cs = first ++ rest ∧ path = .field (String.ofList name) :: segments

/-- A name, found by deciding on its characters. -/
theorem isName_of_all {cs : List Char} (hfirst : cs.head?.any fun c => !isDigit c)
    (hall : cs.all isNameChar) : IsName cs where
  ne_nil := by
    rintro rfl
    cases hfirst
  chars := List.all_eq_true.mp hall
  first c rest heq := by
    subst heq
    simpa using hfirst

theorem isIndex_decimal {n : Nat} (h : n < indexLimit) : IsIndex (decimal n) n where
  ne_nil := decimal_ne_nil n
  digits c hc := isDigit_of_mem_decimal hc
  value := Nat.ofDigitChars_toDigits (by decide) (by decide)
  small := h

theorem padded_self (token : List Char) : Padded token token :=
  ⟨[], [], blank_nil, blank_nil, by simp⟩

/-! ## What is read is spelled -/

/-- A token that was taken, with the blanks before and after it. -/
theorem exists_padded {cs token rest : List Char} (h : skipBlank cs = token ++ rest) :
    ∃ taken, Padded token taken ∧ cs = taken ++ skipBlank rest := by
  obtain ⟨us, hu, hcs⟩ := exists_blank_append_skipBlank cs
  obtain ⟨vs, hv, hrest⟩ := exists_blank_append_skipBlank rest
  refine ⟨us ++ token ++ vs, ⟨us, vs, hu, hv, rfl⟩, ?_⟩
  rw [List.append_assoc, ← hrest, List.append_assoc, ← h]
  exact hcs

theorem readName_sound {cs rest : List Char} {name : String}
    (h : readName cs = .ok (name, rest)) :
    ∃ token taken, IsName token ∧ Padded token taken ∧ name = String.ofList token ∧
      cs = taken ++ skipBlank rest := by
  unfold readName at h
  split at h
  · cases h
  · next c more heq =>
    split at h
    · cases h
    · next hd =>
      split at h
      · next hn =>
        cases h
        have htoken : skipBlank cs =
            (c :: more.takeWhile isNameChar) ++ more.dropWhile isNameChar := by
          rw [heq, List.cons_append, List.takeWhile_append_dropWhile]
        obtain ⟨taken, hp, hcs⟩ := exists_padded htoken
        refine ⟨_, taken, ⟨by simp, ?_, ?_⟩, hp, rfl, hcs⟩
        · intro d hd'
          rcases List.mem_cons.mp hd' with rfl | hm
          · exact hn
          · exact List.all_eq_true.mp (List.all_takeWhile (p := isNameChar) (l := more)) d hm
        · intro d ds heq'
          cases heq'
          simpa using hd
      · cases h

theorem expect_sound {mark : Char} {cs rest : List Char} (h : expect mark cs = .ok rest) :
    ∃ taken, Padded [mark] taken ∧ cs = taken ++ skipBlank rest := by
  unfold expect at h
  split at h
  · cases h
  · next c more heq =>
    split at h
    · next hc =>
      cases h
      subst hc
      exact exists_padded heq
    · cases h

theorem quotedText_sound {quote : Char} {cs text rest : List Char}
    (h : quotedText quote cs = some (text, rest)) :
    ∃ body, Quoted quote body text ∧ cs = body ++ quote :: rest := by
  fun_induction quotedText quote cs generalizing text with
  | case1 => simp at h
  | case2 => simp at h
  | case3 c more ih =>
    obtain ⟨parts, hp, heq⟩ := Option.map_eq_some_iff.mp h
    cases heq
    obtain ⟨body, hb, rfl⟩ := ih hp
    exact ⟨'\\' :: c :: body, .escaped c hb, rfl⟩
  | case4 =>
    cases h
    exact ⟨[], .nil, rfl⟩
  | case5 c more hend hesc hne ih =>
    obtain ⟨parts, hp, heq⟩ := Option.map_eq_some_iff.mp h
    cases heq
    obtain ⟨body, hb, rfl⟩ := ih hp
    refine ⟨c :: body, .plain hne ?_ hb, rfl⟩
    rintro rfl
    -- a backslash is read together with the character that follows it
    cases body with
    | nil => exact hesc quote _ rfl rfl
    | cons d body => exact hesc d _ rfl rfl

/-- The digits of an index are read as the number they write. -/
theorem numeral_eq_some_iff {cs : List Char} {n : Nat} (hd : ∀ c ∈ cs, isDigit c)
    (hne : cs ≠ []) :
    numeral 10 indexLimit cs = some n ↔ IsIndex cs n := by
  have hnum : numeral 10 indexLimit cs = (digitsValue 10 0 cs).filter (· < indexLimit) := by
    simp only [numeral]
    split
    · exact absurd (hd '+' (by simp)) (by decide)
    · rw [if_neg (by simpa using hne)]
  rw [hnum, digitsValue_eq_ofDigitChars fun c hc => hd c hc, Option.filter_eq_some_iff]
  constructor
  · rintro ⟨heq, hlt⟩
    exact ⟨hne, hd, Option.some.inj heq, by simpa using hlt⟩
  · rintro ⟨-, -, hval, hlt⟩
    exact ⟨by rw [hval], by simpa using hlt⟩

theorem readBracket_sound {cs opening rest : List Char} {s : Segment}
    (ho : Padded ['['] opening) (h : readBracket cs = .ok (s, rest)) :
    ∃ taken, Member (opening ++ taken) s ∧ cs = taken ++ skipBlank rest := by
  unfold readBracket at h
  split at h
  · cases h
  · next c more =>
    split at h
    · next hq =>
      split at h
      · cases h
      · next text more' htext =>
        obtain ⟨body, hb, hmore⟩ := quotedText_sound htext
        split at h
        · cases h
        · next after he =>
          cases h
          obtain ⟨closing, hp, rfl⟩ := expect_sound he
          obtain ⟨vs, hv, hsplit⟩ := exists_blank_append_skipBlank (closing ++ skipBlank rest)
          refine ⟨(c :: body ++ [c]) ++ closing, ?_, ?_⟩
          · rw [← List.append_assoc]
            exact .quoted hq ho hb ⟨[], [], blank_nil, blank_nil, by simp⟩ hp
          · rw [hmore]
            simp
    · split at h
      · next hd =>
        split at h
        · cases h
        · next n hn =>
          split at h
          · cases h
          · next after he =>
            cases h
            obtain ⟨closing, hp, hmore⟩ := expect_sound he
            have hdigits : ∀ d ∈ c :: more.takeWhile isDigit, isDigit d := by
              intro d hm
              rcases List.mem_cons.mp hm with rfl | hm
              · exact hd
              · exact List.all_eq_true.mp (List.all_takeWhile (p := isDigit) (l := more)) d hm
            have hidx := (numeral_eq_some_iff hdigits (by simp)).mp hn
            refine ⟨(c :: more.takeWhile isDigit) ++ closing, ?_, ?_⟩
            · rw [← List.append_assoc]
              exact .index ho hidx ⟨[], [], blank_nil, blank_nil, by simp⟩ hp
            · rw [List.append_assoc, ← hmore, List.cons_append, List.takeWhile_append_dropWhile]
      · cases h

/-- What the next step of reading has taken, up to the blanks that follow. -/
theorem next_sound {cs rest : List Char} {s : Segment} (h : next cs = .ok (.member s rest)) :
    ∃ taken, Member taken s ∧ cs = taken ++ skipBlank rest := by
  unfold next at h
  split at h
  · cases h
  · next c more heq =>
    split at h
    · next hc =>
      subst hc
      split at h
      · cases h
      · next name after hn =>
        cases h
        obtain ⟨token, taken, hname, hp, rfl, hmore⟩ := readName_sound hn
        obtain ⟨us, hu, hcs⟩ := exists_blank_append_skipBlank cs
        refine ⟨us ++ ['.'] ++ taken, .name ⟨us, [], hu, blank_nil, by simp⟩ hname hp, ?_⟩
        rw [hcs, heq, hmore]
        simp
    · split at h
      · next hc =>
        subst hc
        split at h
        · cases h
        · next s' after hb =>
          cases h
          have htoken : skipBlank cs = ['['] ++ more := heq
          obtain ⟨opening, ho, hcs⟩ := exists_padded htoken
          obtain ⟨taken, hm, hmore⟩ := readBracket_sound ho hb
          exact ⟨opening ++ taken, hm, by rw [hcs, hmore, List.append_assoc]⟩
      · split at h
        · split at h
          · cases h
          · split at h <;> cases h
        · cases h

theorem next_finish_sound {cs : List Char} {call : Bool} (h : next cs = .ok (.finish call)) :
    Call (skipBlank cs) call := by
  unfold next at h
  split at h
  · next heq =>
    cases h
    rw [heq]
    exact .none
  · next c more heq =>
    split at h
    · split at h <;> cases h
    · split at h
      · split at h <;> cases h
      · split at h
        · next hc =>
          subst hc
          split at h
          · cases h
          · next after he =>
            split at h
            · next hafter =>
              cases h
              obtain ⟨closing, hp, rfl⟩ := expect_sound he
              rw [heq, hafter, List.append_nil]
              have ho : Padded ['('] ['('] := ⟨[], [], blank_nil, blank_nil, rfl⟩
              exact .call ho hp
            · cases h
        · cases h

theorem next_skipBlank (cs : List Char) : next (skipBlank cs) = next cs := by
  unfold next
  rw [skipBlank_skipBlank]

theorem readTail_sound {cs : List Char} {segments : List Segment} {call : Bool}
    (h : readTail cs = .ok (segments, call)) : Tail (skipBlank cs) segments call := by
  fun_induction readTail cs generalizing segments call with
  | case1 => cases h
  | case2 cs call' hn =>
    cases h
    exact ⟨[], skipBlank cs, .nil, next_finish_sound hn, rfl⟩
  | case3 => cases h
  | case4 cs s rest hn hlt segments' call' hr ih =>
    cases h
    obtain ⟨taken, hm, hcs⟩ := next_sound (next_skipBlank cs ▸ hn)
    obtain ⟨ms, suffix, hms, hc, hrest⟩ := ih hr
    refine ⟨taken ++ ms, suffix, .cons hm hms, hc, ?_⟩
    rw [hcs, hrest, List.append_assoc]

theorem readParts_sound {cs : List Char} {head : String} {segments : List Segment} {call : Bool}
    (h : readParts cs = .ok (head, segments, call)) :
    Spells cs (.field head :: segments) call := by
  unfold readParts at h
  split at h
  · cases h
  · next head' rest hn =>
    split at h
    · cases h
    · next segments' call' ht =>
      cases h
      obtain ⟨token, first, hname, hp, rfl, rfl⟩ := readName_sound hn
      exact ⟨token, first, skipBlank rest, segments, hname, hp, readTail_sound ht, rfl, rfl⟩

/-! ## What is spelled is read -/

theorem readName_complete {us token rest : List Char} (hu : Blank us) (hn : IsName token)
    (hr : Stops isNameChar rest) :
    readName (us ++ token ++ rest) = .ok (String.ofList token, rest) := by
  cases token with
  | nil => exact absurd rfl hn.ne_nil
  | cons c more =>
    have hc : isNameChar c = true := hn.chars c (by simp)
    have hb := isBlank_eq_false_of_isNameChar hc
    have hmore : ∀ d ∈ more, isNameChar d := fun d hd => hn.chars d (by simp [hd])
    have hskip : skipBlank (us ++ (c :: more) ++ rest) = c :: (more ++ rest) := by
      rw [List.append_assoc, skipBlank_append hu, List.cons_append, skipBlank_cons hb]
    unfold readName
    rw [hskip]
    simp only [hn.first c more rfl, hc, if_true, takeWhile_append_stop hmore hr,
      dropWhile_append_stop hmore hr, Bool.false_eq_true, if_false]

theorem expect_complete (mark : Char) {us : List Char} (hu : Blank us)
    (hm : isBlank mark = false) (rest : List Char) :
    expect mark (us ++ mark :: rest) = .ok rest := by
  unfold expect
  rw [skipBlank_append hu, skipBlank_cons hm]
  simp

theorem quotedText_complete {quote : Char} {body text : List Char} (hq : quote ≠ '\\')
    (h : Quoted quote body text) (rest : List Char) :
    quotedText quote (body ++ quote :: rest) = some (text, rest) := by
  induction h with
  | nil =>
    unfold quotedText
    split
    · next heq => cases heq
    · next heq => cases heq; exact absurd rfl hq
    · next heq => cases heq; exact absurd rfl hq
    · next heq => cases heq; simp
  | escaped c _ ih => simp [quotedText, ih]
  | @plain body text c hc hb _ ih =>
    simp [quotedText, hb, hc, ih]

/-- After a quoted text comes the closing bracket. -/
theorem readBracket_text {quote : Char} {body text : List Char} (hq : quote = '\'' ∨ quote = '"')
    (ht : Quoted quote body text) (w : List Char) : readBracket (quote :: body ++ quote :: w) =
      (expect ']' w).map fun after => (.field (String.ofList text), after) := by
  have hne : quote ≠ '\\' := by rcases hq with rfl | rfl <;> decide
  unfold readBracket
  simp only [List.cons_append, hq, if_true, quotedText_complete hne ht]
  cases expect ']' w <;> rfl

/-- After the digits of an index comes the closing bracket. -/
theorem readBracket_digits {digits w : List Char} {n : Nat} (hd : IsIndex digits n)
    (hw : Stops isDigit w) :
    readBracket (digits ++ w) = (expect ']' w).map fun after => (.index n, after) := by
  have hnum := (numeral_eq_some_iff hd.digits hd.ne_nil).mpr hd
  cases digits with
  | nil => exact absurd rfl hd.ne_nil
  | cons c more =>
    have hc : isDigit c = true := hd.digits c (by simp)
    have hmore : ∀ d ∈ more, isDigit d := fun d hm => hd.digits d (by simp [hm])
    have hquote : ¬(c = '\'' ∨ c = '"') := by
      rintro (rfl | rfl) <;> exact absurd hc (by decide)
    unfold readBracket
    simp only [List.cons_append, hquote, hc, if_true, if_false, takeWhile_append_stop hmore hw,
      dropWhile_append_stop hmore hw, hnum]
    cases expect ']' w <;> rfl

theorem readBracket_quoted {quote : Char} {body text us : List Char}
    (hq : quote = '\'' ∨ quote = '"') (ht : Quoted quote body text) (hu : Blank us)
    (rest : List Char) :
    readBracket (quote :: body ++ quote :: (us ++ ']' :: rest)) =
      .ok (.field (String.ofList text), rest) := by
  rw [readBracket_text hq ht, expect_complete ']' hu rfl]
  rfl

theorem readBracket_index {digits us rest : List Char} {n : Nat} (hd : IsIndex digits n)
    (hu : Blank us) :
    readBracket (digits ++ (us ++ ']' :: rest)) = .ok (.index n, rest) := by
  have hstop : Stops isDigit (us ++ ']' :: rest) :=
    hu.stops (fun _ => isDigit_eq_false_of_isBlank) (stops_cons (by decide) rest)
  rw [readBracket_digits hd hstop, expect_complete ']' hu rfl]
  rfl

/-- A member is read, up to the blanks that follow it. -/
theorem next_complete {cs rest : List Char} {s : Segment} (h : Member cs s)
    (hr : Stops isNameChar rest) :
    ∃ more, next (cs ++ rest) = .ok (.member s more) ∧ skipBlank more = skipBlank rest := by
  cases h with
  | @name _ _ token hp hn hc =>
    obtain ⟨us, vs, hu, hv, rfl⟩ := hp
    obtain ⟨us', vs', hu', hv', rfl⟩ := hc
    refine ⟨vs' ++ rest, ?_, skipBlank_append hv' rest⟩
    have hskip : skipBlank (us ++ ['.'] ++ vs ++ (us' ++ token ++ vs') ++ rest) =
        '.' :: ((vs ++ us') ++ token ++ (vs' ++ rest)) := by
      simp only [List.append_assoc, skipBlank_append hu, List.singleton_append]
      exact skipBlank_cons rfl _
    unfold next
    rw [hskip]
    simp only [if_true, readName_complete (hv.append hu') hn
      (hv'.stops (fun _ => isNameChar_eq_false_of_isBlank) hr)]
  | @index _ _ _ digits n ho hd hc he =>
    obtain ⟨us, vs, hu, hv, rfl⟩ := ho
    obtain ⟨us', vs', hu', hv', rfl⟩ := hc
    obtain ⟨us'', vs'', hu'', hv'', rfl⟩ := he
    refine ⟨vs'' ++ rest, ?_, skipBlank_append hv'' rest⟩
    have hskip : skipBlank (us ++ ['['] ++ vs ++ (us' ++ digits ++ vs') ++
        (us'' ++ [']'] ++ vs'') ++ rest) =
        '[' :: ((vs ++ us') ++ (digits ++ ((vs' ++ us'') ++ ']' :: (vs'' ++ rest)))) := by
      simp only [List.append_assoc, skipBlank_append hu, List.singleton_append]
      exact skipBlank_cons rfl _
    have hdigits : ∀ more, skipBlank (digits ++ more) = digits ++ more := by
      intro more
      cases digits with
      | nil => exact absurd rfl hd.ne_nil
      | cons c ds => exact skipBlank_cons (isBlank_eq_false_of_isDigit (hd.digits c (by simp))) _
    unfold next
    rw [hskip]
    simp only [skipBlank_append (hv.append hu'), hdigits, readBracket_index hd (hv'.append hu''),
      show ('[' = '.') = False by simp, if_true, if_false]
  | @quoted _ _ _ body text quote hq ho ht hc he =>
    obtain ⟨us, vs, hu, hv, rfl⟩ := ho
    obtain ⟨us', vs', hu', hv', rfl⟩ := hc
    obtain ⟨us'', vs'', hu'', hv'', rfl⟩ := he
    refine ⟨vs'' ++ rest, ?_, skipBlank_append hv'' rest⟩
    have hskip : skipBlank (us ++ ['['] ++ vs ++ (us' ++ (quote :: body ++ [quote]) ++ vs') ++
        (us'' ++ [']'] ++ vs'') ++ rest) =
        '[' :: ((vs ++ us') ++ (quote :: (body ++ quote :: ((vs' ++ us'') ++
          ']' :: (vs'' ++ rest))))) := by
      simp only [List.append_assoc, skipBlank_append hu, List.cons_append, List.nil_append]
      exact skipBlank_cons rfl _
    have hquote : isBlank quote = false := by rcases hq with rfl | rfl <;> rfl
    have hread := readBracket_quoted hq ht (hv'.append hu'') (vs'' ++ rest)
    rw [List.cons_append] at hread
    unfold next
    rw [hskip]
    simp only [skipBlank_append (hv.append hu'), skipBlank_cons hquote, hread,
      show ('[' = '.') = False by simp, if_true, if_false]

theorem next_call {cs : List Char} {call : Bool} (h : Call cs call) :
    next cs = .ok (.finish call) := by
  cases h with
  | none => rfl
  | call ho hc =>
    obtain ⟨us, vs, hu, hv, rfl⟩ := ho
    obtain ⟨us', vs', hu', hv', rfl⟩ := hc
    have hskip : skipBlank (us ++ ['('] ++ vs ++ (us' ++ [')'] ++ vs')) =
        '(' :: ((vs ++ us') ++ ')' :: vs') := by
      simp only [List.append_assoc, skipBlank_append hu, List.singleton_append]
      exact skipBlank_cons rfl _
    have hend : skipBlank vs' = [] := (skipBlank_eq_nil_iff vs').mpr hv'
    unfold next
    rw [hskip]
    simp only [expect_complete ')' (hv.append hu') rfl, hend,
      show ('(' = '.') = False by simp, show ('(' = '[') = False by simp, if_true, if_false]

theorem readTail_eq_of_finish {cs : List Char} {call : Bool} (h : next cs = .ok (.finish call)) :
    readTail cs = .ok ([], call) := by
  unfold readTail
  split <;> simp_all

theorem readTail_eq_of_member {cs rest : List Char} {s : Segment} {segments : List Segment}
    {call : Bool} (h : next cs = .ok (.member s rest)) (hr : readTail rest = .ok (segments, call)) :
    readTail cs = .ok (s :: segments, call) := by
  unfold readTail
  split
  · simp_all
  · simp_all
  · next s' rest' h' =>
    rw [h] at h'
    cases h'
    rw [hr]

theorem readTail_append_blank {us cs : List Char} {segments : List Segment} {call : Bool}
    (hu : skipBlank us = skipBlank cs) (h : readTail cs = .ok (segments, call)) :
    readTail us = .ok (segments, call) := by
  have hn : next us = next cs := by rw [← next_skipBlank us, hu, next_skipBlank]
  cases hc : next cs with
  | error f =>
    unfold readTail at h
    split at h <;> simp_all
  | ok step =>
    cases step with
    | finish call' =>
      rw [readTail_eq_of_finish hc] at h
      cases h
      exact readTail_eq_of_finish (hn.trans hc)
    | member s rest =>
      unfold readTail at h
      split at h
      · cases h
      · simp_all
      · next s' rest' hc' =>
        rw [hc] at hc'
        cases hc'
        split at h
        · cases h
        · next hr =>
          cases h
          exact readTail_eq_of_member (hn.trans hc) hr

theorem padded_stops {mark : Char} {cs : List Char} (h : Padded [mark] cs)
    (hm : isNameChar mark = false) (rest : List Char) : Stops isNameChar (cs ++ rest) := by
  obtain ⟨us, vs, hu, -, rfl⟩ := h
  rw [List.append_assoc, List.append_assoc]
  exact hu.stops (fun _ => isNameChar_eq_false_of_isBlank) (stops_cons hm _)

theorem Member.stops {cs : List Char} {s : Segment} (h : Member cs s) (rest : List Char) :
    Stops isNameChar (cs ++ rest) := by
  cases h with
  | name hp _ _ =>
    rw [List.append_assoc]
    exact padded_stops hp rfl _
  | index ho _ _ _ =>
    rw [List.append_assoc, List.append_assoc]
    exact padded_stops ho rfl _
  | quoted _ ho _ _ _ =>
    rw [List.append_assoc, List.append_assoc]
    exact padded_stops ho rfl _

theorem Members.stops {cs rest : List Char} {segments : List Segment} (h : Members cs segments)
    (hr : Stops isNameChar rest) : Stops isNameChar (cs ++ rest) := by
  cases h with
  | nil => exact hr
  | cons hm _ =>
    rw [List.append_assoc]
    exact hm.stops _

theorem Tail.stops {cs : List Char} {segments : List Segment} {call : Bool}
    (h : Tail cs segments call) : Stops isNameChar cs := by
  obtain ⟨ms, suffix, hms, hc, rfl⟩ := h
  refine hms.stops ?_
  cases hc with
  | none => exact stops_nil _
  | call ho _ => exact padded_stops ho rfl _

/-- Members are read in front of any text that is read. -/
theorem readTail_members {ms rest : List Char} {segments more : List Segment} {call : Bool}
    (h : Members ms segments) (hstop : Stops isNameChar rest)
    (hr : readTail rest = .ok (more, call)) :
    readTail (ms ++ rest) = .ok (segments ++ more, call) := by
  induction h with
  | nil => exact hr
  | @cons cs ms s segments hm hms ih =>
    obtain ⟨after, hn, hskip⟩ := next_complete hm (hms.stops hstop)
    rw [List.append_assoc]
    exact readTail_eq_of_member hn (readTail_append_blank hskip ih)

theorem readTail_complete {cs : List Char} {segments : List Segment} {call : Bool}
    (h : Tail cs segments call) : readTail cs = .ok (segments, call) := by
  obtain ⟨ms, suffix, hms, hc, rfl⟩ := h
  have hstop : Stops isNameChar suffix := Tail.stops ⟨[], suffix, .nil, hc, rfl⟩
  have hread := readTail_members hms hstop (readTail_eq_of_finish (next_call hc))
  rwa [List.append_nil] at hread

theorem readParts_complete {cs : List Char} {head : String} {segments : List Segment} {call : Bool}
    (h : Spells cs (.field head :: segments) call) :
    readParts cs = .ok (head, segments, call) := by
  obtain ⟨name, first, rest, segments', hn, hp, ht, rfl, hpath⟩ := h
  cases hpath
  obtain ⟨us, vs, hu, hv, rfl⟩ := hp
  have hstop : Stops isNameChar (vs ++ rest) :=
    hv.stops (fun _ => isNameChar_eq_false_of_isBlank) ht.stops
  unfold readParts
  rw [List.append_assoc, readName_complete hu hn hstop]
  simp only [readTail_append_blank (skipBlank_append hv rest) (readTail_complete ht)]

/-- Reading a whole text and the grammar agree. -/
theorem readParts_eq_ok_iff (cs : List Char) (head : String) (segments : List Segment)
    (call : Bool) :
    readParts cs = .ok (head, segments, call) ↔ Spells cs (.field head :: segments) call :=
  ⟨readParts_sound, readParts_complete⟩

/-! ## Blanks around the whole text -/

/-- Trailing blanks of a text belong to its last token. -/
theorem Padded.cut {token cs front ds us : List Char} (h : Padded token cs)
    (ht : ∀ c ∈ token.getLast?, isBlank c = false) (hne : token ≠ []) (hu : Blank us)
    (heq : front ++ cs = ds ++ us) : ∃ cs', Padded token cs' ∧ ds = front ++ cs' := by
  obtain ⟨vs, ws, hv, hw, rfl⟩ := h
  obtain ⟨init, last, rfl⟩ : ∃ init last, token = init ++ [last] :=
    ⟨token.dropLast, token.getLast hne, (List.dropLast_concat_getLast hne).symm⟩
  have hlast : isBlank last = false := ht last (by simp)
  have heq' : (front ++ vs ++ init ++ [last]) ++ ws = ds ++ us := by
    simpa [List.append_assoc] using heq
  rcases List.append_eq_append_iff.mp heq' with ⟨mid, hds, hws⟩ | ⟨mid, hfront, hus⟩
  · refine ⟨vs ++ (init ++ [last]) ++ mid, ⟨vs, mid, hv, (hws ▸ hw).of_append_left, rfl⟩, ?_⟩
    simpa [List.append_assoc] using hds
  · -- otherwise the last character of the token would be among the blanks
    rcases List.eq_nil_or_concat mid with rfl | ⟨mid, c, rfl⟩
    · refine ⟨vs ++ (init ++ [last]), ⟨vs, [], hv, blank_nil, by simp⟩, ?_⟩
      simpa [List.append_assoc] using hfront.symm
    · rw [List.concat_eq_append, ← List.append_assoc] at hfront
      obtain ⟨-, hc⟩ := List.append_inj' hfront rfl
      cases hc
      have := hu last (by simp [hus])
      rw [hlast] at this
      cases this

theorem Padded.cut_mark {mark : Char} {cs front ds us : List Char} (h : Padded [mark] cs)
    (hm : isBlank mark = false) (hu : Blank us) (heq : front ++ cs = ds ++ us) :
    ∃ cs', Padded [mark] cs' ∧ ds = front ++ cs' :=
  h.cut (by simpa using hm) (by simp) hu heq

theorem Padded.cut_name {name cs front ds us : List Char} (h : Padded name cs) (hn : IsName name)
    (hu : Blank us) (heq : front ++ cs = ds ++ us) :
    ∃ cs', Padded name cs' ∧ ds = front ++ cs' :=
  h.cut (fun c hc => isBlank_eq_false_of_isNameChar (hn.chars c (List.mem_of_getLast? hc)))
    hn.ne_nil hu heq

theorem Member.cut {cs front ds us : List Char} {s : Segment} (h : Member cs s) (hu : Blank us)
    (heq : front ++ cs = ds ++ us) : ∃ cs', Member cs' s ∧ ds = front ++ cs' := by
  cases h with
  | @name point _ _ hp hn hc =>
    rw [← List.append_assoc] at heq
    obtain ⟨cs', hc', rfl⟩ := hc.cut_name hn hu heq
    exact ⟨point ++ cs', .name hp hn hc', List.append_assoc _ _ _⟩
  | @index opening cs closing _ _ ho hd hc he =>
    rw [← List.append_assoc] at heq
    obtain ⟨closing', he', rfl⟩ := he.cut_mark rfl hu heq
    exact ⟨opening ++ cs ++ closing', .index ho hd hc he', List.append_assoc _ _ _⟩
  | @quoted opening cs closing _ _ _ hq ho ht hc he =>
    rw [← List.append_assoc] at heq
    obtain ⟨closing', he', rfl⟩ := he.cut_mark rfl hu heq
    exact ⟨opening ++ cs ++ closing', .quoted hq ho ht hc he', List.append_assoc _ _ _⟩

theorem Members.cut {cs front ds us : List Char} {segments : List Segment}
    (h : Members cs segments) (hne : segments ≠ []) (hu : Blank us)
    (heq : front ++ cs = ds ++ us) : ∃ cs', Members cs' segments ∧ ds = front ++ cs' := by
  induction h generalizing front with
  | nil => exact absurd rfl hne
  | @cons cs rest s segments hm hr ih =>
    rw [← List.append_assoc] at heq
    cases segments with
    | nil =>
      cases hr
      rw [List.append_nil] at heq
      obtain ⟨cs', hm', rfl⟩ := hm.cut hu heq
      exact ⟨cs' ++ [], .cons hm' .nil, by simp⟩
    | cons t segments =>
      obtain ⟨rest', hr', rfl⟩ := ih (by simp) heq
      exact ⟨cs ++ rest', .cons hm hr', List.append_assoc _ _ _⟩

/-- Trailing blanks do not matter to what a text spells. -/
theorem Spells.cut {ds us : List Char} {path : Path} {call : Bool}
    (h : Spells (ds ++ us) path call) (hu : Blank us) : Spells ds path call := by
  obtain ⟨name, first, rest, segments, hn, hp, ⟨ms, suffix, hms, hc, rfl⟩, heq, rfl⟩ := h
  cases hc with
  | call ho hc =>
    rw [← List.append_assoc, ← List.append_assoc] at heq
    obtain ⟨closing', hc', rfl⟩ := hc.cut_mark rfl hu heq.symm
    exact ⟨name, first, _, segments, hn, hp, ⟨ms, _, hms, .call ho hc', rfl⟩,
      by simp [List.append_assoc], rfl⟩
  | none =>
    rw [List.append_nil] at heq
    cases segments with
    | nil =>
      cases hms
      rw [List.append_nil] at heq
      obtain ⟨first', hp', hds⟩ := hp.cut_name hn hu ((List.nil_append first).trans heq.symm)
      exact ⟨name, first', [], [], hn, hp', ⟨[], [], .nil, .none, rfl⟩, by simp [hds], rfl⟩
    | cons s segments =>
      obtain ⟨ms', hms', rfl⟩ := hms.cut (by simp) hu heq.symm
      exact ⟨name, first, ms' ++ [], _, hn, hp, ⟨ms', [], hms', .none, rfl⟩, by simp, rfl⟩

theorem readParts_skipBlank (cs : List Char) : readParts (skipBlank cs) = readParts cs := by
  have h : readName (skipBlank cs) = readName cs := by
    unfold readName
    rw [skipBlank_skipBlank]
  unfold readParts
  rw [h]

/-- The blanks around a text do not matter to what it spells. -/
theorem Spells.trim {cs : List Char} {path : Path} {call : Bool} (h : Spells cs path call) :
    Spells (trim cs) path call := by
  obtain ⟨us, hu, heq⟩ := exists_trimRight_append_blank (skipBlank cs)
  have hskip : Spells (skipBlank cs) path call := by
    obtain ⟨name, first, rest, segments, hn, hp, ht, hcs, rfl⟩ := h
    have hread := readParts_complete ⟨name, first, rest, segments, hn, hp, ht, hcs, rfl⟩
    exact readParts_sound (readParts_skipBlank cs ▸ hread)
  rw [heq] at hskip
  exact hskip.cut hu

theorem Padded.append {token cs us : List Char} (h : Padded token cs) (hu : Blank us) :
    Padded token (cs ++ us) := by
  obtain ⟨vs, ws, hv, hw, rfl⟩ := h
  exact ⟨vs, ws ++ us, hv, hw.append hu, List.append_assoc _ _ _⟩

theorem Member.append {cs us : List Char} {s : Segment} (h : Member cs s) (hu : Blank us) :
    Member (cs ++ us) s := by
  cases h with
  | name hp hn hc =>
    rw [List.append_assoc]
    exact .name hp hn (hc.append hu)
  | index ho hd hc he =>
    rw [List.append_assoc]
    exact .index ho hd hc (he.append hu)
  | quoted hq ho ht hc he =>
    rw [List.append_assoc]
    exact .quoted hq ho ht hc (he.append hu)

theorem Members.append {cs us : List Char} {segments : List Segment} (h : Members cs segments)
    (hne : segments ≠ []) (hu : Blank us) : Members (cs ++ us) segments := by
  induction h with
  | nil => exact absurd rfl hne
  | @cons cs rest s segments hm hr ih =>
    rw [List.append_assoc]
    cases segments with
    | nil =>
      cases hr
      rw [List.nil_append, ← List.append_nil (cs ++ us)]
      exact .cons (hm.append hu) .nil
    | cons t segments => exact .cons hm (ih (List.cons_ne_nil t segments))

/-- Blanks may be added at the end of an expression. -/
theorem Spells.append {cs us : List Char} {path : Path} {call : Bool} (h : Spells cs path call)
    (hu : Blank us) : Spells (cs ++ us) path call := by
  obtain ⟨name, first, rest, segments, hn, hp, ⟨ms, suffix, hms, hc, rfl⟩, rfl, rfl⟩ := h
  cases hc with
  | call ho hc =>
    exact ⟨name, first, _, segments, hn, hp, ⟨ms, _, hms, .call ho (hc.append hu), rfl⟩,
      by simp [List.append_assoc], rfl⟩
  | none =>
    cases segments with
    | nil =>
      cases hms
      exact ⟨name, first ++ us, [], [], hn, hp.append hu, ⟨[], [], .nil, .none, rfl⟩, by simp, rfl⟩
    | cons s segments =>
      exact ⟨name, first, _, _, hn, hp,
        ⟨ms ++ us, [], hms.append (List.cons_ne_nil s segments) hu, .none, rfl⟩, by simp, rfl⟩

/-- What the trimmed text spells, the text spells. -/
theorem Spells.of_trim {cs : List Char} {path : Path} {call : Bool}
    (h : Spells (Text.trim cs) path call) : Spells cs path call := by
  obtain ⟨us, hu, heq⟩ := exists_trimRight_append_blank (skipBlank cs)
  have hskip : Spells (skipBlank cs) path call := by
    rw [heq]
    exact h.append hu
  obtain ⟨_, _, _, _, _, _, _, _, rfl⟩ := id hskip
  exact readParts_sound ((readParts_skipBlank cs).symm.trans (readParts_complete hskip))

theorem trimmed_trimmed (s : String) : trimmed (trimmed s) = trimmed s := by
  simp [trimmed, trim_trim]

/-! ## Whole expressions -/

theorem read_spells (source : String) (e : Expression) : read source = .ok e ↔
    Spells source.toList e.path e.isCall ∧ e.source = trimmed source := by
  unfold read path
  rw [← readParts_eq_ok_iff]
  constructor
  · intro h
    simp only at h
    split at h
    · cases h
    · next hparts =>
      cases h
      exact ⟨hparts, rfl⟩
  · rintro ⟨hparts, hs⟩
    simp only [hparts]
    rw [← hs]

/-- The trimmed text of an expression is read as the same expression. -/
theorem read_trimmed {source : String} {e : Expression} (h : read source = .ok e) :
    read (trimmed source) = .ok e := by
  obtain ⟨hspells, hs⟩ := (read_spells source e).mp h
  refine (read_spells (trimmed source) e).mpr ⟨?_, ?_⟩
  · simpa [trimmed] using hspells.trim
  · rw [hs, trimmed_trimmed]

/-- A text whose trimmed text is an expression is the same expression. -/
theorem read_of_trimmed {source : String} {e : Expression} (h : read (trimmed source) = .ok e) :
    read source = .ok e := by
  obtain ⟨hspells, hs⟩ := (read_spells (trimmed source) e).mp h
  rw [trimmed, String.toList_ofList] at hspells
  exact (read_spells source e).mpr ⟨hspells.of_trim, hs.trans (trimmed_trimmed source)⟩

/-- The head of an expression is a name, so it is no numeral. -/
theorem head_ne_decimal {source : String} {e : Expression} (h : read source = .ok e) (n : Nat) :
    e.head ≠ String.ofList (decimal n) := by
  obtain ⟨⟨name, first, rest, segments, hn, -, -, -, hpath⟩, -⟩ := (read_spells source e).mp h
  have hhead : e.head = String.ofList name := by simpa [path] using congrArg List.head? hpath
  intro heq
  have hname : name = decimal n := by simpa [hhead] using congrArg String.toList heq
  obtain ⟨c, more, hc⟩ := List.exists_cons_of_ne_nil hn.ne_nil
  have hmem : c ∈ decimal n := by
    rw [← hname, hc]
    exact List.mem_cons_self
  have hdigit : isDigit c = true := isDigit_of_mem_decimal hmem
  rw [hn.first c more hc] at hdigit
  cases hdigit

/-- Reading accepts a text exactly if it spells an expression, with the path and the call that it
spells and the trimmed text as its source; and that source is read as the same expression. -/
theorem read_eq_ok_iff_spells (source : String) (e : Expression) :
    (read source = .ok e ↔
      Spells source.toList e.path e.isCall ∧ e.source = trimmed source) ∧
    (read source = .ok e → read e.source = .ok e) := by
  refine ⟨read_spells source e, fun h => ?_⟩
  rw [((read_spells source e).mp h).2]
  exact read_trimmed h

end ReactiveView.Expression
