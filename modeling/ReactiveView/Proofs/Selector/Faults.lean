import ReactiveView.Proofs.Selector.Grammar
/-!
# Where reading a selector fails

An error carries the text as it was given and a place that is counted without the blanks in front.
So it points to the fault exactly if there are no such blanks; with them, the fault is as many bytes
further on. Only two kinds of characters can stand at the wrong place by chance and be the one that
is named: a blank, among the blanks in front, and a second star, whose place may be where the first
one is. A mark without a name never is at the wrong place, since in front of it every mark has one.

Results:
* `read_error_cases`: what was taken before reading failed, and how it failed.
* `exists_isNameChar_of_mark`, `eq_star_of_mem_text`: what stands in front of a fault.
* `points_of_read_error`: when an error points to the fault.
-/
namespace ReactiveView.Selector

open Text

/-- What an error says of a text is so: its place is one between two characters; the character that
it names starts there; the mark whose name is missing ends there. -/
structure Points (cs : List Char) (message : String) (position : Nat) : Prop where
  boundary : ∃ front rest, cs = front ++ rest ∧ (String.ofList front).utf8ByteSize = position
  character : ∀ c, message = unexpected c →
    ∃ front rest, cs = front ++ c :: rest ∧ (String.ofList front).utf8ByteSize = position
  name : message = "Expected name" → ∃ front mark rest, (mark = '#' ∨ mark = '.') ∧
    Stops isNameChar rest ∧ cs = front ++ mark :: rest ∧
    (String.ofList (front ++ [mark])).utf8ByteSize = position

/-- A character that a text starts with, or a blank in front of it, stands by chance where an error
that is counted without the blanks names such a character. -/
def Masked (blanks cs : List Char) (message : String) (position : Nat) : Prop :=
  (∃ us c vs, blanks = us ++ c :: vs ∧ message = unexpected c ∧
    position = (String.ofList us).utf8ByteSize) ∨
  (message = unexpected '*' ∧ position = (String.ofList blanks).utf8ByteSize ∧
    ∃ rest, cs = '*' :: rest)

variable {w : Compound} {cs front rest : List Char} {c mark : Char}

/-! ## Messages -/

theorem toList_unexpected (c : Char) :
    (unexpected c).toList = "Unexpected character '".toList ++ [c] ++ "'".toList := by
  have houter : (unexpected c).toList =
      ("Unexpected character '" ++ c.toString).toList ++ "'".toList := String.toList_append
  have hinner : ("Unexpected character '" ++ c.toString).toList =
      "Unexpected character '".toList ++ c.toString.toList := String.toList_append
  rw [houter, hinner]
  exact congrArg (fun cs => _ ++ cs ++ _) (String.toList_singleton c)

theorem unexpected_inj {c d : Char} (h : unexpected c = unexpected d) : c = d := by
  have hlist := congrArg String.toList h
  rw [toList_unexpected, toList_unexpected, List.append_left_inj, List.append_right_inj] at hlist
  exact (List.cons.inj hlist).1

theorem unexpected_ne {s : String} (hs : s.toList.length < 24) (c : Char) : unexpected c ≠ s := by
  have hlength : (unexpected c).toList.length = 24 := by
    rw [toList_unexpected, List.length_append, List.length_append, List.length_singleton]
    decide
  rintro rfl
  omega

theorem points_empty (cs : List Char) : Points cs "Empty selector" 0 where
  boundary := ⟨[], cs, rfl, rfl⟩
  character c h := absurd h.symm (unexpected_ne (by decide) c)
  name h := absurd h (by decide)

theorem points_character (h : cs = front ++ c :: rest) :
    Points cs (unexpected c) (byteLength front) where
  boundary := ⟨front, c :: rest, h, utf8ByteSize_ofList front⟩
  character _ hd := ⟨front, rest, unexpected_inj hd ▸ h, utf8ByteSize_ofList front⟩
  name hname := absurd hname (unexpected_ne (by decide) c)

theorem byteLength_mark (hm : mark = '#' ∨ mark = '.') (cs : List Char) :
    (String.ofList (cs ++ [mark])).utf8ByteSize = byteLength cs + 1 := by
  rw [utf8ByteSize_ofList, byteLength_append]
  rcases hm with rfl | rfl <;> rfl

theorem points_name (hm : mark = '#' ∨ mark = '.') (hs : Stops isNameChar rest)
    (h : cs = front ++ mark :: rest) : Points cs "Expected name" (byteLength front + 1) where
  boundary := ⟨front ++ [mark], rest, by simp [h], byteLength_mark hm front⟩
  character c hc := absurd hc.symm (unexpected_ne (by decide) c)
  name _ := ⟨front, mark, rest, hm, hs, h, byteLength_mark hm front⟩

/-! ## What stands in front of a fault -/

/-- A text that is refused is empty, or a compound and a rest at which reading halts. -/
theorem read_error_cases {source : String} {err : Error} (h : read source = .error err) :
    (trim source.toList = [] ∧ err = .parse source "Empty selector" 0) ∨
    ∃ (w : Compound) (rest : List Char) (f : Failure), w.WellNamed ∧
      trim source.toList = w.text ++ rest ∧ (Stops isNameChar rest ∨ w = ⟨.star, []⟩) ∧
      Halts rest f ∧ err = .parse source f.message (f.offset (w.text ++ rest)) := by
  have hread : ∃ f, readTrimmed (trim source.toList) = .error f ∧
      err = .parse source f.message (f.offset (trim source.toList)) := by
    simp only [read] at h
    split at h
    · next f hf => exact ⟨f, hf, (Except.error.inj h).symm⟩
    · cases h
  obtain ⟨f, hf, rfl⟩ := hread
  by_cases hne : trim source.toList = []
  · rw [hne, readTrimmed] at hf
    cases hf
    exact .inl ⟨hne, by rw [hne]; rfl⟩
  · obtain ⟨w, rest, hw, htext, hstop, ⟨-, hok⟩ | ⟨g, hg, herror⟩⟩ := readTrimmed_cases hne
    · rw [hf] at hok
      cases hok
    · obtain rfl := Except.error.inj (herror.symm.trans hf)
      exact .inr ⟨w, rest, g, hw, htext, hstop, hg, by rw [← htext]⟩

/-- A mark in a row of parts has its name behind it. -/
theorem exists_isNameChar_of_part {parts : List Part}
    (hparts : ∀ p ∈ parts, IsName p.name.toList) (hmark : isNameChar mark = false)
    (h : parts.flatMap Part.text = front ++ mark :: rest) :
    ∃ c more, rest = c :: more ∧ isNameChar c := by
  induction parts generalizing front with
  | nil => exact absurd h.symm (List.append_ne_nil_of_right_ne_nil _ (List.cons_ne_nil _ _))
  | cons p parts ih =>
    obtain ⟨hp, hmore⟩ := List.forall_mem_cons.mp hparts
    obtain ⟨first, -, htext⟩ := p.exists_mark
    rw [List.flatMap_cons, htext] at h
    cases front with
    | nil =>
      obtain ⟨c, cs, hc⟩ := List.exists_cons_of_ne_nil hp.ne_nil
      refine ⟨c, cs ++ parts.flatMap Part.text, ?_, hp.chars c (by simp [hc])⟩
      rw [← (List.cons.inj h).2, hc]
      rfl
    | cons d front =>
      obtain ⟨ws, -, hrest⟩ := exists_append_of_run hp.chars hmark (List.cons.inj h).2
      exact ih hmore hrest

/-- A mark in a compound has its name behind it. -/
theorem exists_isNameChar_of_mark (hw : w.WellNamed) (hm : mark = '#' ∨ mark = '.')
    (h : w.text = front ++ mark :: rest) : ∃ c more, rest = c :: more ∧ isNameChar c := by
  have hclass : (isNameChar mark || mark == '*') = false := by rcases hm with rfl | rfl <;> rfl
  obtain ⟨ws, -, hparts⟩ := exists_append_of_run (all_text_of_tag hw.tag) hclass h
  exact exists_isNameChar_of_part hw.parts (Bool.or_eq_false_iff.mp hclass).1 hparts

/-- A character that stands in a compound and is unexpected behind it is a star, and stands for the
tag. -/
theorem eq_star_of_text (hw : w.WellNamed) (hc : ¬(c = '#' ∨ c = '.'))
    (hstop : Stops isNameChar (c :: rest) ∨ w = ⟨.star, []⟩) {us vs : List Char}
    (h : w.text = us ++ c :: vs) : c = '*' ∧ us = [] ∧ w.tag = .star := by
  rcases hstop with hstop | rfl
  · have hname : isNameChar c = false := hstop c rest rfl
    have hparts : ∀ ws zs, w.parts.flatMap Part.text ≠ ws ++ c :: zs := by
      intro ws zs heq
      have hmem : c ∈ w.parts.flatMap Part.text := by simp [heq]
      rcases mem_parts_cases hw.parts hmem with hmark | hin
      · exact hc hmark
      · rw [hname] at hin
        cases hin
    rw [Compound.text] at h
    cases htag : w.tag with
    | absent =>
      rw [htag] at h
      exact absurd h (hparts us vs)
    | star =>
      rw [htag] at h
      cases us with
      | nil => exact ⟨(List.cons.inj h).1.symm, rfl, rfl⟩
      | cons d us => exact absurd (List.cons.inj h).2 (hparts us vs)
    | named name =>
      rw [htag] at h
      obtain ⟨ws, -, hrest⟩ := exists_append_of_run (hw.tag name (by rw [htag]; rfl)).chars hname h
      exact absurd hrest (hparts ws vs)
  · cases us with
    | nil => exact ⟨(List.cons.inj h).1.symm, rfl, rfl⟩
    | cons d us =>
      have hnil : [] = us ++ c :: vs := (List.cons.inj h).2
      exact absurd hnil.symm (List.append_ne_nil_of_right_ne_nil _ (List.cons_ne_nil _ _))

/-! ## Where errors point to -/

/-- The blanks around a text. -/
theorem exists_blank_around (cs : List Char) :
    ∃ us, Blank us ∧ cs = cs.takeWhile isBlank ++ trim cs ++ us := by
  obtain ⟨us, hu, hskip⟩ := exists_trimRight_append_blank (skipBlank cs)
  refine ⟨us, hu, ?_⟩
  rw [List.append_assoc]
  exact List.takeWhile_append_dropWhile.symm.trans (congrArg _ hskip)

/-- What stands further in front than the fault is among the blanks or in the compound. -/
theorem exists_of_displaced {blanks us front rest' more : List Char} (hne : blanks ≠ [])
    (heq : blanks ++ (w.text ++ more) ++ us = front ++ c :: rest')
    (hlen : byteLength front = byteLength w.text) :
    ∃ mid, blanks ++ w.text = front ++ c :: mid ∧ rest' = mid ++ (more ++ us) := by
  have hpos : 0 < byteLength blanks := byteLength_pos hne
  have hlt : byteLength front < byteLength (blanks ++ w.text) := by
    rw [byteLength_append]
    omega
  refine exists_append_of_byteLength_lt ?_ hlt
  rw [← heq]
  simp only [List.append_assoc]

/-- With blanks in front, an error about a mark without a name does not point to one. -/
theorem not_points_name (hw : w.WellNamed) {blanks us : List Char} (hb : Blank blanks)
    (hne : blanks ≠ []) {more : List Char} :
    ¬Points (blanks ++ (w.text ++ more) ++ us) "Expected name" (byteLength w.text + 1) := by
  intro h
  obtain ⟨front, mark, rest, hm, hs, heq, hlen⟩ := h.name rfl
  have hblank : isBlank mark = false := by rcases hm with rfl | rfl <;> rfl
  rw [byteLength_mark hm] at hlen
  obtain ⟨mid, hmid, rfl⟩ := exists_of_displaced hne heq (Nat.add_right_cancel hlen)
  -- so the mark stands in the compound, where its name is behind it
  obtain ⟨ws, -, htext⟩ := exists_append_of_run hb hblank hmid
  obtain ⟨c, more, rfl, hc⟩ := exists_isNameChar_of_mark hw hm htext
  rw [hs c _ rfl] at hc
  cases hc

/-- With blanks in front, an error about a character points to one by chance only. -/
theorem masked_of_points (hw : w.WellNamed) {blanks us : List Char} (hne : blanks ≠ [])
    (hc : ¬(c = '#' ∨ c = '.')) (hstop : Stops isNameChar (c :: rest) ∨ w = ⟨.star, []⟩)
    (h : Points (blanks ++ (w.text ++ c :: rest) ++ us) (unexpected c) (byteLength w.text)) :
    Masked blanks (w.text ++ c :: rest) (unexpected c) (byteLength w.text) := by
  obtain ⟨front, rest', heq, hlen⟩ := h.character c rfl
  rw [utf8ByteSize_ofList] at hlen
  obtain ⟨mid, hmid, -⟩ := exists_of_displaced hne heq hlen
  have hstar : ∀ ws, front = blanks ++ ws → w.text = ws ++ c :: mid →
      Masked blanks (w.text ++ c :: rest) (unexpected c) (byteLength w.text) := by
    rintro ws rfl htext
    obtain ⟨rfl, rfl, -⟩ := eq_star_of_text hw hc hstop htext
    refine .inr ⟨rfl, ?_, mid ++ '*' :: rest, by simp [htext]⟩
    rw [utf8ByteSize_ofList, ← hlen, List.append_nil]
  rcases List.append_eq_append_iff.mp hmid with ⟨ws, hfront, htext⟩ | ⟨ws, hblanks, htext⟩
  · exact hstar ws hfront htext
  · cases ws with
    | nil => exact hstar [] (by simp [hblanks]) htext.symm
    | cons d ws =>
      obtain rfl := (List.cons.inj htext).1
      exact .inl ⟨front, c, ws, hblanks, rfl, by rw [utf8ByteSize_ofList, hlen]⟩

/-- What stands by chance where the error is placed is what the error names. -/
theorem Masked.points {blanks us : List Char} {message : String} {position : Nat}
    (h : Masked blanks cs message position) : Points (blanks ++ cs ++ us) message position := by
  rcases h with ⟨front, c, vs, rfl, rfl, rfl⟩ | ⟨rfl, rfl, rest, rfl⟩
  · have heq : front ++ c :: vs ++ cs ++ us = front ++ c :: (vs ++ cs ++ us) := by simp
    rw [utf8ByteSize_ofList]
    exact points_character heq
  · have heq : blanks ++ '*' :: rest ++ us = blanks ++ '*' :: (rest ++ us) := by simp
    rw [utf8ByteSize_ofList]
    exact points_character heq

section

variable {f : Failure}

theorem Halts.message_ne (h : Halts rest f) : f.message ≠ "Empty selector" := by
  cases h with
  | name _ _ => exact (by decide : "Expected name" ≠ "Empty selector")
  | character _ => exact unexpected_ne (by decide) _

/-- The place at which reading halts behind a compound. -/
theorem Halts.offset_eq (h : Halts rest f) (w : Compound) : f.offset (w.text ++ rest) =
    byteLength w.text + if f.message = "Expected name" then 1 else 0 := by
  cases h with
  | @name mark more hm hs =>
    have hplace := Failure.offset_append (w.text ++ [mark]) ⟨"Expected name", more⟩
    rw [List.append_assoc, List.singleton_append, ← utf8ByteSize_ofList, byteLength_mark hm]
      at hplace
    exact hplace
  | @character c more hc =>
    rw [if_neg (unexpected_ne (by decide) c)]
    exact Failure.offset_append w.text ⟨unexpected c, c :: more⟩

/-- Counted with the blanks in front, the place at which reading halts is that of the fault. -/
theorem Halts.points (h : Halts rest f) (w : Compound) {us : List Char} (hu : Blank us)
    (blanks : List Char) : Points (blanks ++ (w.text ++ rest) ++ us) f.message
      (byteLength blanks + f.offset (w.text ++ rest)) := by
  rw [h.offset_eq, ← Nat.add_assoc, ← byteLength_append]
  cases h with
  | @name mark more hm hs =>
    have hs' : Stops isNameChar (more ++ us) :=
      hs.append (hu.stops_self fun _ => isNameChar_eq_false_of_isBlank)
    exact points_name hm hs' (by simp)
  | @character c more hc =>
    have heq : blanks ++ (w.text ++ c :: more) ++ us = blanks ++ w.text ++ c :: (more ++ us) := by
      simp
    rw [if_neg (unexpected_ne (by decide) c)]
    exact points_character heq

/-- Counted without the blanks in front, it is that of the fault by chance only. -/
theorem Halts.masked (h : Halts rest f) (hw : w.WellNamed)
    (hstop : Stops isNameChar rest ∨ w = ⟨.star, []⟩) {blanks us : List Char} (hb : Blank blanks)
    (hne : blanks ≠ []) (hpoints : Points (blanks ++ (w.text ++ rest) ++ us) f.message
      (f.offset (w.text ++ rest))) :
    Masked blanks (w.text ++ rest) f.message (f.offset (w.text ++ rest)) := by
  rw [h.offset_eq] at hpoints ⊢
  cases h with
  | name _ _ => exact absurd hpoints (not_points_name hw hb hne)
  | @character c more hc =>
    rw [if_neg (unexpected_ne (by decide) c)] at hpoints ⊢
    exact masked_of_points hw hne hc hstop hpoints

end

/-- An error of a selector carries the text as it was given, and a place in the text without the
blanks around it: there it points to the fault, and in the text as given the fault is as many bytes
further on as there are blanks in front. So the error points to the fault in the text that it
carries exactly if there are no blanks in front, the text is empty but for blanks, or what the error
names stands there by chance. -/
theorem points_of_read_error {source : String} {err : Error} (h : read source = .error err) :
    ∃ message position, err = .parse source message position ∧
      Points (trim source.toList) message position ∧
      (message ≠ "Empty selector" → Points source.toList message
        ((String.ofList (source.toList.takeWhile isBlank)).utf8ByteSize + position)) ∧
      (Points source.toList message position ↔
        source.toList.takeWhile isBlank = [] ∨ message = "Empty selector" ∨
          Masked (source.toList.takeWhile isBlank) (trim source.toList) message position) := by
  obtain ⟨us, hu, hsource⟩ := exists_blank_around source.toList
  have hb : Blank (source.toList.takeWhile isBlank) := List.all_eq_true.mp List.all_takeWhile
  rw [utf8ByteSize_ofList]
  generalize source.toList.takeWhile isBlank = blanks at hsource hb ⊢
  rcases read_error_cases h with ⟨-, rfl⟩ | ⟨w, rest, f, hw, htext, hstop, hf, rfl⟩
  · exact ⟨_, 0, rfl, points_empty _, fun hne => absurd rfl hne,
      fun _ => .inr (.inl rfl), fun _ => points_empty _⟩
  · rw [htext] at hsource ⊢
    rw [hsource]
    refine ⟨_, _, rfl, ?_, fun _ => hf.points w hu blanks, fun hpoints => ?_, ?_⟩
    · have hinside := hf.points w blank_nil []
      rwa [byteLength_nil, Nat.zero_add, List.nil_append, List.append_nil] at hinside
    · by_cases hne : blanks = []
      · exact .inl hne
      · exact .inr (.inr (hf.masked hw hstop hb hne hpoints))
    · rintro (rfl | hempty | hmasked)
      · have hwhole := hf.points w hu []
        rwa [byteLength_nil, Nat.zero_add] at hwhole
      · exact absurd hempty hf.message_ne
      · exact hmasked.points

/-- A blank of three bytes in front: the error is placed within it, and the fault is three bytes
further on. -/
theorem points_of_read_error_wide :
    read "\u3000a b" = .error (.parse "\u3000a b" (unexpected ' ') 1) ∧
      ¬Points "\u3000a b".toList (unexpected ' ') 1 ∧
      Points "\u3000a b".toList (unexpected ' ') 4 := by
  have hread : read "\u3000a b" = .error (.parse "\u3000a b" (unexpected ' ') 1) :=
    eq_error_of_errorOf? (by decide +kernel)
  obtain ⟨message, position, herr, -, hshift, hiff⟩ := points_of_read_error hread
  injection herr with _ hmessage hposition
  subst hmessage hposition
  have hblanks : "\u3000a b".toList.takeWhile isBlank = ['\u3000'] := by decide
  rw [hblanks] at hshift hiff
  refine ⟨hread, fun hpoints => ?_, hshift (unexpected_ne (by decide) _)⟩
  rcases hiff.mp hpoints with hnil | hempty | ⟨us, c, vs, hin, hc, -⟩ | ⟨hstar, -⟩
  · cases hnil
  · exact unexpected_ne (by decide) _ hempty
  · obtain rfl := unexpected_inj hc
    have hmem : ' ' ∈ ['\u3000'] := by simp [hin]
    exact absurd hmem (by decide)
  · exact absurd (unexpected_inj hstar) (by decide)

end ReactiveView.Selector
