import ReactiveView.Proofs.Template.Substitution
/-!
# Words that give way

Whatever substitution makes of a text, be the text an expression or not, is the text with some of its
words replaced by the accessor. Blanks and braces are part of no word, and an accessor neither starts
nor ends with one, so those of the text stay where they are and no word or accessor runs into them.
What is decided by the blanks and braces of a text is therefore the same before and after.

Results:
* `reworded_substitute`, `reworded_substituteInside`: what substitution does, as a relation.
* `Reworded.of_cons`, `Reworded.trim`: the seams at the front of a text stay, and its trimmed text is
  reworded.
* `substituteFrom_append`, `trim_substitute`: what is behind the last word stays, and substitution
  goes through trimming.
-/
namespace ReactiveView.Template

open Text Expression

/-- The characters at which the accessor must not be joined: blanks, and the braces that marks are
made of. -/
def isSeam (c : Char) : Bool := isBlank c || c == '\x7b' || c == '\x7d'

/-- A text with something in it, and no seam at either end. -/
structure Joins (cs : List Char) : Prop where
  ne_nil : cs ≠ []
  front : Stops isSeam cs
  back : Stops isSeam cs.reverse

/-- A text with some of its words replaced by the accessor. -/
inductive Reworded (accessor : List Char) : List Char → List Char → Prop
  | nil : Reworded accessor [] []
  | keep {cs ds : List Char} (c : Char) (h : Reworded accessor cs ds) :
    Reworded accessor (c :: cs) (c :: ds)
  | replace {word cs ds : List Char} (hne : word ≠ []) (hword : ∀ c ∈ word, isNameChar c)
      (h : Reworded accessor cs ds) : Reworded accessor (word ++ cs) (accessor ++ ds)

variable {item accessor cs ds : List Char}

theorem isSeam_eq_false_of_isNameChar {c : Char} (h : isNameChar c) : isSeam c = false := by
  have hne : ∀ d, isNameChar d = false → (c == d) = false := by
    intro d hd
    rw [beq_eq_false_iff_ne]
    rintro rfl
    rw [hd] at h
    cases h
  rw [isSeam, isBlank_eq_false_of_isNameChar h, hne '\x7b' (by decide +kernel),
    hne '\x7d' (by decide +kernel)]
  rfl

theorem isSeam_of_isBlank {c : Char} (h : isBlank c) : isSeam c := by simp [isSeam, h]

/-! ## The ends of an accessor -/

/-- A text whose last character that is no blank is no seam. -/
def Closes (cs : List Char) : Prop :=
  ∃ front c back, cs = front ++ c :: back ∧ Blank back ∧ isSeam c = false

theorem Closes.append_left (h : Closes cs) (us : List Char) : Closes (us ++ cs) := by
  obtain ⟨front, c, back, rfl, hback, hc⟩ := h
  exact ⟨us ++ front, c, back, by simp, hback, hc⟩

theorem closes_of_padded {token : List Char} {c : Char} (h : Padded (token ++ [c]) cs)
    (hc : isSeam c = false) : Closes cs := by
  obtain ⟨us, vs, -, hv, rfl⟩ := h
  exact ⟨us ++ token, c, vs, by simp, hv, hc⟩

theorem closes_of_name {name : List Char} (hn : IsName name) (h : Padded name cs) : Closes cs := by
  have hlast := (List.dropLast_concat_getLast hn.ne_nil).symm
  rw [hlast] at h
  exact closes_of_padded h
    (isSeam_eq_false_of_isNameChar (hn.chars _ (List.getLast_mem hn.ne_nil)))

theorem closes_of_member {s : Segment} (h : Member cs s) : Closes cs := by
  have hbracket : ∀ {closing : List Char}, Padded ([] ++ [']']) closing → Closes closing :=
    fun he => closes_of_padded he (by decide)
  cases h with
  | name hp hn hc => exact (closes_of_name hn hc).append_left _
  | index ho hd hc he => exact (hbracket he).append_left _
  | quoted hq ho ht hc he => exact (hbracket he).append_left _

theorem closes_of_members {segments : List Segment} (h : Members cs segments)
    (hne : segments ≠ []) : Closes cs := by
  induction h with
  | nil => exact absurd rfl hne
  | @cons cs rest s segments hm hr ih =>
    cases segments with
    | nil =>
      cases hr
      rw [List.append_nil]
      exact closes_of_member hm
    | cons t segments => exact (ih (List.cons_ne_nil t segments)).append_left cs

/-- A trimmed expression that is no call can stand in the place of a name. -/
theorem joins_of_spells {path : Path} (h : Spells cs path false) (htrim : Text.trim cs = cs) :
    Joins cs := by
  obtain ⟨hfront, hback⟩ := trim_eq_self_iff.mp htrim
  obtain ⟨name, first, rest, segments, hn, hp, ⟨ms, suffix, hms, hc, rfl⟩, rfl, rfl⟩ := h
  cases hc
  obtain ⟨c, more, hname⟩ := List.exists_cons_of_ne_nil hn.ne_nil
  have hc : isNameChar c := hn.chars c (hname ▸ List.mem_cons_self)
  have hcloses : Closes (first ++ (ms ++ [])) := by
    rw [List.append_nil]
    cases segments with
    | nil =>
      cases hms
      rw [List.append_nil]
      exact closes_of_name hn hp
    | cons s segments => exact (closes_of_members hms (List.cons_ne_nil s segments)).append_left first
  obtain ⟨us, vs, hu, hv, rfl⟩ := hp
  obtain ⟨front, d, back, heq, hblank, hd⟩ := hcloses
  refine ⟨by simp [hname], ?_, ?_⟩
  · -- there are no blanks in front of the name
    cases us with
    | nil =>
      rw [hname]
      exact stops_cons (isSeam_eq_false_of_isNameChar hc) _
    | cons b us =>
      have hb := hu b List.mem_cons_self
      rw [hfront b _ rfl] at hb
      cases hb
  · rw [heq] at hback ⊢
    rcases List.eq_nil_or_concat back with rfl | ⟨back, b, rfl⟩
    · rw [List.reverse_append, List.reverse_singleton]
      exact stops_cons hd _
    · have hb := hblank b (by simp)
      rw [hback b (back.reverse ++ d :: front.reverse) (by simp)] at hb
      cases hb

/-! ## Reworded texts -/

theorem Reworded.refl (accessor cs : List Char) : Reworded accessor cs cs := by
  induction cs with
  | nil => exact .nil
  | cons c cs ih => exact .keep c ih

theorem Reworded.append {cs' ds' : List Char} (h : Reworded accessor cs ds)
    (h' : Reworded accessor cs' ds') : Reworded accessor (cs ++ cs') (ds ++ ds') := by
  induction h with
  | nil => exact h'
  | keep c _ ih => exact .keep c ih
  | replace hne hword _ ih =>
    rw [List.append_assoc, List.append_assoc]
    exact .replace hne hword ih

theorem Reworded.reverse (h : Reworded accessor cs ds) :
    Reworded accessor.reverse cs.reverse ds.reverse := by
  induction h with
  | nil => exact .nil
  | keep c _ ih =>
    rw [List.reverse_cons, List.reverse_cons]
    exact ih.append (.refl _ [c])
  | @replace word cs ds hne hword _ ih =>
    have hlast : Reworded accessor.reverse (word.reverse ++ []) (accessor.reverse ++ []) :=
      .replace (by simpa using hne) (fun c hc => hword c (List.mem_reverse.mp hc)) .nil
    rw [List.append_nil, List.append_nil] at hlast
    rw [List.reverse_append, List.reverse_append]
    exact ih.append hlast

theorem Joins.reverse (h : Joins accessor) : Joins accessor.reverse where
  ne_nil := by simpa using h.ne_nil
  front := h.back
  back := by simpa using h.front

/-- The seams at the front of a text are those at the front of the new one. -/
theorem Reworded.of_cons (h : Reworded accessor cs ds) (hj : Joins accessor) {b : Char}
    (hb : isSeam b) : (∀ {ds' : List Char}, ds = b :: ds' → ∃ cs', cs = b :: cs' ∧
      Reworded accessor cs' ds') ∧
    ∀ {cs' : List Char}, cs = b :: cs' → ∃ ds', ds = b :: ds' ∧ Reworded accessor cs' ds' := by
  cases h with
  | nil => exact ⟨nofun, nofun⟩
  | @keep cs ds c h =>
    constructor
    · rintro ds' ⟨⟩
      exact ⟨cs, rfl, h⟩
    · rintro cs' ⟨⟩
      exact ⟨ds, rfl, h⟩
  | @replace word cs ds hne hword h =>
    obtain ⟨c, more, rfl⟩ := List.exists_cons_of_ne_nil hne
    obtain ⟨d, rest, rfl⟩ := List.exists_cons_of_ne_nil hj.ne_nil
    constructor
    · rintro ds' ⟨⟩
      rw [hj.front b rest rfl] at hb
      cases hb
    · rintro cs' ⟨⟩
      rw [isSeam_eq_false_of_isNameChar (hword b List.mem_cons_self)] at hb
      cases hb

theorem Reworded.eq_nil_iff (h : Reworded accessor cs ds) (hj : Joins accessor) :
    cs = [] ↔ ds = [] := by
  cases h with
  | nil => exact Iff.rfl
  | keep c h => simp
  | replace hne hword h => simp [hne, hj.ne_nil]

theorem Reworded.stops (h : Reworded accessor cs ds) (hj : Joins accessor) {p : Char → Bool}
    (hp : ∀ c, p c → isSeam c) (hcs : Stops p cs) : Stops p ds := by
  intro d rest heq
  rw [Bool.eq_false_iff]
  intro hd
  obtain ⟨cs', rfl, -⟩ := (h.of_cons hj (hp d hd)).1 heq
  rw [hcs d cs' rfl] at hd
  cases hd

theorem Reworded.skipBlank (h : Reworded accessor cs ds) (hj : Joins accessor) :
    Reworded accessor (skipBlank cs) (skipBlank ds) := by
  induction h with
  | nil => exact .nil
  | @keep cs ds c h ih =>
    by_cases hc : isBlank c
    · rw [Text.skipBlank, Text.skipBlank, List.dropWhile_cons_of_pos hc,
        List.dropWhile_cons_of_pos hc]
      exact ih
    · rw [Bool.not_eq_true] at hc
      rw [skipBlank_cons hc, skipBlank_cons hc]
      exact .keep c h
  | @replace word cs ds hne hword h ih =>
    have hkept : Reworded accessor (word ++ cs) (accessor ++ ds) := .replace hne hword h
    have hfront : Stops isBlank (word ++ cs) := by
      obtain ⟨c, more, rfl⟩ := List.exists_cons_of_ne_nil hne
      exact stops_cons (isBlank_eq_false_of_isNameChar (hword c List.mem_cons_self)) _
    rw [hfront.skipBlank_eq,
      (hkept.stops hj (fun _ => isSeam_of_isBlank) hfront).skipBlank_eq]
    exact hkept

/-- What is between the blanks at both ends is reworded. -/
theorem Reworded.trim (h : Reworded accessor cs ds) (hj : Joins accessor) :
    Reworded accessor (trim cs) (trim ds) := by
  have hback := ((h.skipBlank hj).reverse.skipBlank hj.reverse).reverse
  rw [List.reverse_reverse] at hback
  exact hback

theorem Reworded.trim_eq (h : Reworded accessor cs ds) (hj : Joins accessor)
    (hcs : Text.trim cs = cs) : Text.trim ds = ds := by
  obtain ⟨hfront, hback⟩ := trim_eq_self_iff.mp hcs
  exact trim_eq_self_iff.mpr ⟨h.stops hj (fun _ => isSeam_of_isBlank) hfront,
    h.reverse.stops hj.reverse (fun _ => isSeam_of_isBlank) hback⟩

/-! ## What substitution does to any text -/

/-- A quoted text and what follows it are the whole. -/
theorem quotedPart_append (quote : Char) (cs : List Char) :
    (quotedPart quote cs).1 ++ (quotedPart quote cs).2 = cs := by
  fun_induction quotedPart quote cs with
  | case1 => rfl
  | case2 => rfl
  | case3 c rest part after h ih =>
    rw [h] at ih
    simpa using ih
  | case4 => rfl
  | case5 c rest _ _ _ part after h ih =>
    rw [h] at ih
    simpa using ih

theorem reworded_substituteFrom (item accessor : List Char) (afterPoint : Bool) (cs : List Char) :
    Reworded accessor cs (substituteFrom item accessor afterPoint cs) := by
  fun_induction substituteFrom item accessor afterPoint cs with
  | case1 => exact .nil
  | case2 afterPoint c rest hc word ih =>
    have hword : ∀ d ∈ word, isNameChar d :=
      List.forall_mem_cons.mpr ⟨hc, fun d hd =>
        List.all_eq_true.mp (List.all_takeWhile (p := isWordChar) (l := rest)) d hd⟩
    have hparts : c :: rest = word ++ rest.dropWhile isWordChar :=
      congrArg (c :: ·) List.takeWhile_append_dropWhile.symm
    rw [hparts]
    split
    · exact .replace (List.cons_ne_nil _ _) hword ih
    · exact (Reworded.refl accessor word).append ih
  | case3 afterPoint c rest hc hquote ih =>
    have hparts : c :: rest = c :: (quotedPart c rest).1 ++ (quotedPart c rest).2 :=
      congrArg (c :: ·) (quotedPart_append c rest).symm
    conv => enter [2]; rw [hparts]
    exact (Reworded.refl accessor _).append ih
  | case4 afterPoint rest hc hquote ih => exact .keep _ ih
  | case5 afterPoint c rest hc hquote hpoint ih => exact .keep c ih

theorem reworded_substitute (item accessor cs : List Char) :
    Reworded accessor cs (substitute item accessor cs) :=
  reworded_substituteFrom item accessor false cs

/-- Inside interpolations, too, some words give way. -/
theorem reworded_substituteInside (item accessor cs : List Char) :
    Reworded accessor cs (substituteInside item accessor cs) := by
  fun_induction substituteInside item accessor cs with
  | case1 cs h => exact .refl accessor cs
  | case2 cs before rest h h' => exact .refl accessor cs
  | case3 cs before rest h inner after h' hlt ih =>
    have hparts : cs = before ++ openMark ++ inner ++ closeMark ++ after := by
      rw [cut_eq_some h, cut_eq_some h']
      simp only [List.append_assoc]
    conv => enter [2]; rw [hparts]
    exact ((((Reworded.refl accessor before).append (.refl accessor openMark)).append
      (reworded_substitute item accessor inner)).append (.refl accessor closeMark)).append ih

/-! ## What is behind the last word -/

theorem ne_backslash {c : Char} {rest : List Char} (hend : c = '\\' → rest = [] → False)
    (hesc : ∀ d more, c = '\\' → rest = d :: more → False) : c ≠ '\\' := by
  rintro rfl
  cases rest with
  | nil => exact hend rfl rfl
  | cons d more => exact hesc d more rfl rfl

/-- A quoted text is closed before the end of a text, or it reaches into whatever follows. -/
theorem quotedPart_append_cases (quote : Char) (cs ds : List Char) :
    (∃ part after, quotedPart quote cs = (part, after) ∧
      quotedPart quote (cs ++ ds) = (part, after ++ ds)) ∨
    (quotedPart quote cs = (cs, []) ∧
      ∃ us vs, ds = us ++ vs ∧ quotedPart quote (cs ++ ds) = (cs ++ us, vs)) := by
  fun_induction quotedPart quote cs with
  | case1 => exact .inr ⟨rfl, _, _, (quotedPart_append quote ds).symm, rfl⟩
  | case2 =>
    refine .inr ⟨rfl, ?_⟩
    cases ds with
    | nil => exact ⟨[], [], rfl, by simp [quotedPart]⟩
    | cons d ds =>
      refine ⟨d :: (quotedPart quote ds).1, (quotedPart quote ds).2, ?_, by simp [quotedPart]⟩
      rw [List.cons_append, quotedPart_append]
  | case3 c rest part after h ih =>
    rcases ih with ⟨part', after', hpart, hmore⟩ | ⟨hpart, us, vs, hds, hmore⟩
    · rw [h] at hpart
      cases hpart
      exact .inl ⟨_, _, rfl, by simp [quotedPart, hmore]⟩
    · rw [h] at hpart
      cases hpart
      exact .inr ⟨rfl, us, vs, hds, by simp [quotedPart, hmore]⟩
  | case4 rest hend hesc =>
    have hne := ne_backslash hend hesc
    exact .inl ⟨_, _, rfl, by simp [quotedPart, hne]⟩
  | case5 c rest hend hesc hc part after h ih =>
    have hne := ne_backslash hend hesc
    rcases ih with ⟨part', after', hpart, hmore⟩ | ⟨hpart, us, vs, hds, hmore⟩
    · rw [h] at hpart
      cases hpart
      exact .inl ⟨_, _, rfl, by simp [quotedPart, hne, hc, hmore]⟩
    · rw [h] at hpart
      cases hpart
      exact .inr ⟨rfl, us, vs, hds, by simp [quotedPart, hne, hc, hmore]⟩

/-- A text without words is left alone. -/
theorem substituteFrom_of_wordless (item accessor : List Char) (afterPoint : Bool)
    (hcs : ∀ c ∈ cs, isNameChar c = false) : substituteFrom item accessor afterPoint cs = cs := by
  fun_induction substituteFrom item accessor afterPoint cs with
  | case1 => rfl
  | case2 afterPoint c rest hc word ih =>
    rw [isWordChar, hcs c List.mem_cons_self] at hc
    cases hc
  | case3 afterPoint c rest hc hquote ih =>
    have hparts := quotedPart_append c rest
    rw [ih fun d hd => hcs d (List.mem_cons_of_mem c (hparts ▸ List.mem_append_right _ hd)),
      List.cons_append, hparts]
  | case4 afterPoint rest hc hquote ih => rw [ih fun d hd => hcs d (List.mem_cons_of_mem _ hd)]
  | case5 afterPoint c rest hc hquote hpoint ih =>
    rw [ih fun d hd => hcs d (List.mem_cons_of_mem _ hd)]

/-- What is behind the last word of a text is left alone. -/
theorem substituteFrom_append (item accessor : List Char) (afterPoint : Bool) (cs : List Char)
    (hds : ∀ d ∈ ds, isNameChar d = false) :
    substituteFrom item accessor afterPoint (cs ++ ds) =
      substituteFrom item accessor afterPoint cs ++ ds := by
  fun_induction substituteFrom item accessor afterPoint cs with
  | case1 => exact substituteFrom_of_wordless item accessor _ hds
  | case2 afterPoint c rest hc word ih =>
    have hword : ∀ d ∈ word, isNameChar d :=
      List.forall_mem_cons.mpr ⟨hc, fun d hd =>
        List.all_eq_true.mp (List.all_takeWhile (p := isWordChar) (l := rest)) d hd⟩
    have hparts : c :: rest = word ++ rest.dropWhile isWordChar :=
      congrArg (c :: ·) List.takeWhile_append_dropWhile.symm
    have hstop : Stops isNameChar (rest.dropWhile isWordChar ++ ds) := by
      cases hrest : rest.dropWhile isWordChar with
      | nil =>
        rintro d more rfl
        exact hds d List.mem_cons_self
      | cons d more =>
        exact stops_cons (stops_dropWhile isWordChar rest d more hrest) _
    rw [hparts, List.append_assoc, substituteFrom_word hword hstop, ih, List.append_assoc]
  | case3 afterPoint c rest hc hquote ih =>
    rw [List.cons_append, substituteFrom, if_neg hc, if_pos hquote]
    rcases quotedPart_append_cases c rest ds with ⟨part, after, hpart, hmore⟩ |
      ⟨hpart, us, vs, rfl, hmore⟩
    · rw [hpart] at ih ⊢
      rw [hmore, ih]
      simp only [List.cons_append, List.append_assoc]
    · rw [hpart, hmore, substituteFrom_of_wordless item accessor _ fun d hd =>
        hds d (List.mem_append_right us hd), substituteFrom_nil]
      simp only [List.cons_append, List.append_assoc, List.append_nil]
  | case4 afterPoint rest hc hquote ih =>
    rw [List.cons_append, substituteFrom_point, ih, List.cons_append]
  | case5 afterPoint c rest hc hquote hpoint ih =>
    rw [List.cons_append, substituteFrom_other (by simpa [isWordChar] using hc) (not_or.mp hquote)
      hpoint, ih, List.cons_append]

/-- Substitution goes through trimming. -/
theorem trim_substitute (hj : Joins accessor) (item cs : List Char) :
    trim (substitute item accessor cs) = substitute item accessor (trim cs) := by
  obtain ⟨us, hu, hfront⟩ := exists_blank_append_skipBlank cs
  obtain ⟨vs, hv, hback⟩ := exists_trimRight_append_blank (skipBlank cs)
  have hcs : cs = us ++ trim cs ++ vs := by
    rw [List.append_assoc]
    exact hfront.trans (congrArg (us ++ ·) hback)
  have hsame : substitute item accessor cs = us ++ substitute item accessor (trim cs) ++ vs := by
    calc substitute item accessor cs
        = substituteFrom item accessor false (us ++ trim cs ++ vs) := congrArg _ hcs
      _ = us ++ substitute item accessor (trim cs) ++ vs := by
          rw [substituteFrom_append item accessor false _ fun d hd =>
            isNameChar_eq_false_of_isBlank (hv d hd), substituteFrom_blank hu]
          rfl
  rw [hsame, trim_append hu hv]
  exact (reworded_substitute item accessor (trim cs)).trim_eq hj (trim_trim cs)

end ReactiveView.Template
