import ReactiveView.Proofs.Template.Interpolation
import ReactiveView.Proofs.Template.Reworded
/-!
# Interpolations in copies

Substitution goes through a text from the left and ends an interpolation at the first closing mark; a
content is an interpolation if there is an opening mark at its front, a closing one at its end, and
none between them. Where braces run together the two take different braces for the mark: of
`{{a}}}` the one passes over the last brace, and the other has it in the expression. No word ends in a
brace, so what comes of both is the same.

Results:
* `Reworded.hasMark_eq`: an accessor without marks makes none.
* `interpolated?_eq_some_iff`: which contents are interpolations.
* `substituteInside_marks`: what substitution makes of an interpolation.
* `interpolation_substituteInside`: substituting and then looking for the interpolation, or the other
  way round.
-/
namespace ReactiveView.Template

open Text Expression

variable {item accessor cs ds us vs inner expression : List Char} {b : Char}

/-! ## Marks in texts put together -/

theorem occurs_pair_join (hlast : cs.getLast? ≠ some b) (ds : List Char) :
    occurs [b, b] (cs ++ ds) = (occurs [b, b] cs || occurs [b, b] ds) := by
  induction cs with
  | nil => rfl
  | cons c cs ih =>
    rw [List.cons_append, occurs_pair_cons, occurs_pair_cons]
    cases cs with
    | nil =>
      have hc : (c == b) = false := beq_eq_false_iff_ne.mpr fun heq => hlast (congrArg some heq)
      simp [hc, occurs, cut]
    | cons d cs =>
      rw [ih (by simpa using hlast), ← Bool.or_assoc]
      rfl

theorem occurs_pair_concat (h : occurs [b, b] (cs ++ [b]) = false) :
    occurs [b, b] cs = false ∧ cs.getLast? ≠ some b := by
  induction cs with
  | nil => exact ⟨rfl, nofun⟩
  | cons c cs ih =>
    rw [List.cons_append, occurs_pair_cons, Bool.or_eq_false_iff] at h
    obtain ⟨hfront, hcs⟩ := h
    obtain ⟨hnone, hlast⟩ := ih hcs
    cases cs with
    | nil =>
      have hc : (c == b) = false := by simpa using hfront
      exact ⟨by simp [occurs, cut], by simpa using hc⟩
    | cons d cs =>
      rw [occurs_pair_cons, hnone, Bool.or_false]
      exact ⟨hfront, by simpa using hlast⟩

/-- A mark that no brace is in front of is found where it stands. -/
theorem cut_pair (hnone : occurs [b, b] cs = false) (hlast : cs.getLast? ≠ some b)
    (after : List Char) : cut [b, b] (cs ++ [b, b] ++ after) = some (cs, after) := by
  induction cs with
  | nil => simp [cut]
  | cons c cs ih =>
    rw [occurs_pair_cons, Bool.or_eq_false_iff] at hnone
    obtain ⟨hfront, hcs⟩ := hnone
    have hprefix : [b, b].isPrefixOf (c :: (cs ++ [b, b] ++ after)) = false := by
      cases cs with
      | nil =>
        have hc : b ≠ c := fun heq => hlast (congrArg some heq.symm)
        simp [List.isPrefixOf, hc]
      | cons d cs =>
        simp only [List.head?_cons, Option.some_beq_some, Bool.and_eq_false_iff,
          beq_eq_false_iff_ne] at hfront
        simp only [List.cons_append, List.isPrefixOf, Bool.and_true, Bool.and_eq_false_iff,
          beq_eq_false_iff_ne]
        exact hfront.imp Ne.symm Ne.symm
    have hback : cs.getLast? ≠ some b := by
      cases cs with
      | nil => simp
      | cons d cs => simpa using hlast
    rw [List.cons_append, List.cons_append, cut, hprefix, ih hcs hback]
    rfl

/-! ## Marks in reworded texts -/

theorem isSeam_of_isBrace (hb : IsBrace b) : isSeam b := by
  rcases hb with rfl | rfl <;> decide

theorem Joins.getLast?_ne (hj : Joins accessor) (hb : IsBrace b) : accessor.getLast? ≠ some b := by
  intro hlast
  rw [← List.head?_reverse] at hlast
  obtain ⟨rest, hrest⟩ := List.head?_eq_some_iff.mp hlast
  have hseam := hj.back b rest hrest
  rw [isSeam_of_isBrace hb] at hseam
  cases hseam

theorem Reworded.head?_eq (h : Reworded accessor cs ds) (hj : Joins accessor) (hb : IsBrace b) :
    (ds.head? == some b) = (cs.head? == some b) := by
  obtain ⟨hback, hfront⟩ := h.of_cons hj (isSeam_of_isBrace hb)
  rw [Bool.eq_iff_iff, beq_iff_eq, beq_iff_eq, List.head?_eq_some_iff, List.head?_eq_some_iff]
  constructor
  · rintro ⟨ds', heq⟩
    obtain ⟨cs', hcs, -⟩ := hback heq
    exact ⟨cs', hcs⟩
  · rintro ⟨cs', heq⟩
    obtain ⟨ds', hds, -⟩ := hfront heq
    exact ⟨ds', hds⟩

theorem Reworded.occurs_pair (h : Reworded accessor cs ds) (hj : Joins accessor) (hb : IsBrace b)
    (hnone : occurs [b, b] accessor = false) : occurs [b, b] ds = occurs [b, b] cs := by
  induction h with
  | nil => rfl
  | keep c h ih => rw [occurs_pair_cons, occurs_pair_cons, h.head?_eq hj hb, ih]
  | replace hne hword h ih =>
    have hapart : ∀ c, isNameChar c → c ≠ b := by
      rintro c hc rfl
      have hseam := isSeam_eq_false_of_isNameChar hc
      rw [isSeam_of_isBrace hb] at hseam
      cases hseam
    rw [occurs_pair_join (hj.getLast?_ne hb), hnone, ih,
      occurs_pair_append fun c hc => hapart c (hword c hc)]
    rfl

/-- An accessor without marks makes none. -/
theorem Reworded.hasMark_eq (h : Reworded accessor cs ds) (hj : Joins accessor)
    (hnone : hasMark accessor = false) : hasMark ds = hasMark cs := by
  obtain ⟨hopen, hclose⟩ := Bool.or_eq_false_iff.mp hnone
  rw [hasMark, openMark, closeMark, h.occurs_pair hj (.inl rfl) hopen,
    h.occurs_pair hj (.inr rfl) hclose]
  rfl

/-- Seams at the front of a reworded text stood at the front of the text. -/
theorem Reworded.of_append (hj : Joins accessor) (hseam : ∀ c ∈ us, isSeam c)
    (h : Reworded accessor cs (us ++ ds)) : ∃ cs', cs = us ++ cs' ∧ Reworded accessor cs' ds := by
  induction us generalizing cs with
  | nil => exact ⟨cs, rfl, h⟩
  | cons c us ih =>
    obtain ⟨cs', rfl, h'⟩ := (h.of_cons hj (hseam c List.mem_cons_self)).1 rfl
    obtain ⟨rest, rfl, h''⟩ := ih (fun d hd => hseam d (List.mem_cons_of_mem c hd)) h'
    exact ⟨rest, rfl, h''⟩

/-- The text between marks in a reworded text comes from one between marks. -/
theorem Reworded.of_marks (hj : Joins accessor)
    (h : Reworded accessor cs (openMark ++ ds ++ closeMark)) :
    ∃ inner, cs = openMark ++ inner ++ closeMark ∧ Reworded accessor inner ds := by
  have hopen : ∀ c ∈ openMark, isSeam c := List.all_eq_true.mp (by decide)
  have hclose : ∀ c ∈ closeMark.reverse, isSeam c := List.all_eq_true.mp (by decide)
  rw [List.append_assoc] at h
  obtain ⟨rest, rfl, hrest⟩ := h.of_append hj hopen
  have hback := hrest.reverse
  rw [List.reverse_append] at hback
  obtain ⟨inner, hrev, hinner⟩ := hback.of_append hj.reverse hclose
  have hparts : rest = inner.reverse ++ closeMark := by
    have heq := congrArg List.reverse hrev
    rwa [List.reverse_reverse, List.reverse_append, List.reverse_reverse] at heq
  have hwords := hinner.reverse
  rw [List.reverse_reverse, List.reverse_reverse] at hwords
  exact ⟨inner.reverse, by rw [hparts, List.append_assoc], hwords⟩

/-! ## Contents that are interpolations -/

theorem between?_eq_some {front back : List Char} (h : between? front back cs = some inner) :
    cs = front ++ inner ++ back := by
  unfold between? at h
  split at h
  · next hfront =>
    simp only at h
    split at h
    · next hback =>
      cases h
      obtain ⟨rest, rfl⟩ := List.isPrefixOf_iff_prefix.mp hfront
      obtain ⟨middle, hmiddle⟩ := List.isSuffixOf_iff_suffix.mp hback
      rw [List.drop_left'] at hmiddle ⊢
      · rw [← hmiddle, List.length_append, Nat.add_sub_cancel, List.take_left', List.append_assoc]
        rfl
      all_goals rfl
    · cases h
  · cases h

/-- A content is an interpolation if it is a text between marks, blanks apart, that holds no mark and
is not blank. -/
theorem interpolated?_eq_some_iff : interpolated? cs = some expression ↔
    ∃ inner, trim cs = openMark ++ inner ++ closeMark ∧ hasMark inner = false ∧
      trim inner = expression ∧ expression ≠ [] := by
  constructor
  · intro h
    unfold interpolated? at h
    split at h
    · cases h
    · next inner hinner =>
      split at h
      · cases h
      · next hmark =>
        simp only at h
        split at h
        · cases h
        · next hempty =>
          cases h
          exact ⟨inner, between?_eq_some hinner, by simpa [hasMark] using hmark, rfl,
            by simpa using hempty⟩
  · rintro ⟨inner, hcontent, hmark, rfl, hne⟩
    exact interpolated?_of_marks hcontent rfl hmark hne

/-! ## What substitution makes of them -/

/-- A text without marks is one that no closing brace ends, or such a text and one more brace. -/
theorem exists_front (h : occurs closeMark inner = false) :
    ∃ front tail, inner = front ++ tail ∧ occurs closeMark front = false ∧
      front.getLast? ≠ some '\x7d' ∧ (tail = [] ∨ tail = ['\x7d']) := by
  by_cases hlast : inner.getLast? = some '\x7d'
  · obtain ⟨front, rfl⟩ := List.getLast?_eq_some_iff.mp hlast
    obtain ⟨hnone, hfront⟩ := occurs_pair_concat h
    exact ⟨front, ['\x7d'], rfl, hnone, hfront, .inr rfl⟩
  · exact ⟨inner, [], by simp, h, hlast, .inl rfl⟩

theorem substituteInside_of_none (h : occurs openMark cs = false) :
    substituteInside item accessor cs = cs := by
  rw [substituteInside]
  split
  · rfl
  · next hcut =>
    rw [occurs, hcut] at h
    cases h

/-- The text between the marks of an interpolation is substituted as a whole. -/
theorem substituteInside_marks (item accessor : List Char) (hu : Blank us) (hv : Blank vs)
    (hmark : hasMark inner = false) :
    substituteInside item accessor (us ++ (openMark ++ inner ++ closeMark) ++ vs) =
      us ++ (openMark ++ substitute item accessor inner ++ closeMark) ++ vs := by
  obtain ⟨front, tail, rfl, hnone, hlast, htail⟩ := exists_front (Bool.or_eq_false_iff.mp hmark).2
  have hapart : ∀ {ws : List Char}, Blank ws → ∀ c ∈ ws, c ≠ '\x7b' := fun hw c hc =>
    ne_of_isBlank (hw c hc) (by decide)
  have htail' : ∀ c ∈ tail, isNameChar c = false ∧ c ≠ '\x7b' := by
    rcases htail with rfl | rfl
    · simp
    · exact List.forall_mem_singleton.mpr ⟨by decide +kernel, by decide⟩
  -- a brace in front of the closing mark might as well be the one behind it
  have hswap : tail ++ closeMark = closeMark ++ tail := by rcases htail with rfl | rfl <;> rfl
  have hopen : cut openMark (us ++ (openMark ++ (front ++ tail) ++ closeMark) ++ vs)
      = some (us, front ++ closeMark ++ (tail ++ vs)) := by
    have hnone : occurs openMark us = false := by
      have h : occurs openMark (us ++ []) = occurs openMark [] := occurs_pair_append (hapart hu) []
      rwa [List.append_nil] at h
    have hlast : us.getLast? ≠ some '\x7b' := fun h => hapart hu _ (List.mem_of_getLast? h) rfl
    have hcut : cut openMark (us ++ openMark ++ (front ++ closeMark ++ (tail ++ vs))) = _ :=
      cut_pair hnone hlast _
    rw [← hcut]
    simp only [List.append_assoc]
    rw [← List.append_assoc tail, hswap, List.append_assoc]
  have hclose : cut closeMark (front ++ closeMark ++ (tail ++ vs)) = some (front, tail ++ vs) :=
    cut_pair hnone hlast _
  have hrest : substituteInside item accessor (tail ++ vs) = tail ++ vs := by
    refine substituteInside_of_none ?_
    have hall : ∀ c ∈ tail ++ vs, c ≠ '\x7b' :=
      List.forall_mem_append.mpr ⟨fun c hc => (htail' c hc).2, hapart hv⟩
    have h : occurs openMark (tail ++ vs ++ []) = occurs openMark [] := occurs_pair_append hall []
    rwa [List.append_nil] at h
  have hinner : substitute item accessor (front ++ tail) = substitute item accessor front ++ tail :=
    substituteFrom_append item accessor false front fun c hc => (htail' c hc).1
  rw [substituteInside_of_cut hopen hclose, hrest, hinner]
  simp only [List.append_assoc]
  rw [← List.append_assoc tail closeMark, hswap, List.append_assoc]

theorem interpolated?_substituteInside (hj : Joins accessor) (hnone : hasMark accessor = false)
    (item cs : List Char) : interpolated? (substituteInside item accessor cs)
      = (interpolated? cs).map (substitute item accessor) := by
  cases h : interpolated? cs with
  | none =>
    refine Option.eq_none_iff_forall_ne_some.mpr fun expression h' => ?_
    obtain ⟨inner', hcontent, hmark, rfl, hne⟩ := interpolated?_eq_some_iff.mp h'
    -- the marks are those of the text, and what is between them was not blank
    have hwords := (reworded_substituteInside item accessor cs).trim hj
    rw [hcontent] at hwords
    obtain ⟨inner, hcs, hinner⟩ := hwords.of_marks hj
    have hsome : interpolated? cs = some (trim inner) :=
      interpolated?_eq_some_iff.mpr ⟨inner, hcs, (hinner.hasMark_eq hj hnone).symm.trans hmark, rfl,
        fun hnil => hne (((hinner.trim hj).eq_nil_iff hj).mp hnil)⟩
    rw [h] at hsome
    cases hsome
  | some expression =>
    obtain ⟨inner, hcontent, hmark, rfl, hne⟩ := interpolated?_eq_some_iff.mp h
    obtain ⟨us, vs, hu, hv, hcs⟩ := padded_trim cs
    have hsub : substituteInside item accessor cs =
        us ++ (openMark ++ substitute item accessor inner ++ closeMark) ++ vs := by
      rw [← substituteInside_marks item accessor hu hv hmark, ← hcontent, ← hcs]
    have hends : trim (openMark ++ substitute item accessor inner ++ closeMark)
        = openMark ++ substitute item accessor inner ++ closeMark := by
      refine trim_eq_self_iff.mpr ⟨stops_cons (by decide) _, ?_⟩
      rw [List.reverse_append]
      exact stops_cons (by decide) _
    refine interpolated?_eq_some_iff.mpr ⟨substitute item accessor inner, ?_, ?_,
      trim_substitute hj item inner, ?_⟩
    · rw [hsub, trim_append hu hv, hends]
    · rw [(reworded_substitute item accessor inner).hasMark_eq hj hnone, hmark]
    · exact fun hnil => hne (((reworded_substitute item accessor _).eq_nil_iff hj).mpr hnil)

/-- What is interpolated in a text after its interpolations were substituted is what was interpolated
in it before, substituted: nothing if that was nothing. -/
theorem interpolation_substituteInside {accessor : String} {a : Expression}
    (ha : read accessor = .ok a) (hcall : a.isCall = false) (htrim : trimmed accessor = accessor)
    (hnone : hasMark accessor.toList = false) (item text : String) :
    interpolation? (String.ofList (substituteInside item.toList accessor.toList text.toList))
      = (interpolation? text).map fun expression => substituteText expression item accessor := by
  have hspells := ((read_spells accessor a).mp ha).1
  rw [hcall] at hspells
  have htrim' : trim accessor.toList = accessor.toList := by
    simpa [trimmed] using congrArg String.toList htrim
  rw [interpolation?, interpolation?, String.toList_ofList,
    interpolated?_substituteInside (joins_of_spells hspells htrim') hnone]
  cases interpolated? text.toList with
  | none => rfl
  | some expression =>
    simp only [Option.map_some, substituteText, String.toList_ofList]

/-- Of braces that run together the first two close for the one and the last two for the other. -/
theorem interpolation_substituteInside_braces :
    interpolation? (String.ofList (substituteInside "fruit".toList "fruits[3]".toList
      "\x7b\x7b fruit.x fruit \x7d\x7d\x7d".toList)) = some "fruits[3].x fruits[3] \x7d" := by
  have ha : read "fruits[3]" = .ok ⟨"fruits[3]", "fruits", [.index 3], false⟩ :=
    eq_ok_of_toOption (by decide +kernel)
  rw [interpolation_substituteInside ha rfl (by decide +kernel) (by decide +kernel)]
  decide +kernel

end ReactiveView.Template
