import ReactiveView.Proofs.Text.Characters
/-!
# Trimmed texts

What trimming does to blanks at the ends of a text, and which texts it leaves alone: those that
neither start nor end with a blank.

Results:
* `trim_append`: blanks around a text are trimmed with those of the text.
* `trim_eq_self_iff`: a text is left alone if it has no blank at either end.
-/
namespace ReactiveView.Text

variable {us vs cs : List Char}

theorem skipBlank_trim (cs : List Char) : skipBlank (trim cs) = trim cs := by
  unfold Text.trim
  obtain ⟨us, -, heq⟩ := exists_trimRight_append_blank (skipBlank cs)
  cases h : trimRight (skipBlank cs) with
  | nil => rfl
  | cons c rest =>
    rw [h, List.cons_append] at heq
    exact skipBlank_cons (not_isBlank_of_skipBlank heq) rest

theorem trimRight_trimRight (cs : List Char) : trimRight (trimRight cs) = trimRight cs := by
  unfold trimRight
  rw [List.reverse_reverse]
  exact congrArg List.reverse (skipBlank_skipBlank cs.reverse)

theorem trim_trim (cs : List Char) : trim (trim cs) = trim cs := by
  calc trim (trim cs) = trimRight (skipBlank (trim cs)) := rfl
    _ = trimRight (trim cs) := by rw [skipBlank_trim]
    _ = trim cs := trimRight_trimRight _

theorem trimRight_append_blank (hu : Blank us) (cs : List Char) :
    trimRight (cs ++ us) = trimRight cs := by
  have hdrop : (us.reverse ++ cs.reverse).dropWhile isBlank = cs.reverse.dropWhile isBlank :=
    skipBlank_append (fun c hc => hu c (List.mem_reverse.mp hc)) cs.reverse
  rw [trimRight, List.reverse_append, hdrop, trimRight]

theorem trimRight_append_singleton {c : Char} (h : isBlank c = false) (cs : List Char) :
    trimRight (cs ++ [c]) = cs ++ [c] := by
  rw [trimRight, List.reverse_append, List.reverse_singleton, List.singleton_append,
    List.dropWhile_cons_of_neg (by simp [h]), List.reverse_cons, List.reverse_reverse]

/-- Blanks around a text that has none at its ends are trimmed. -/
theorem trim_padded (hu : Blank us) (hv : Blank vs) {c d : Char}
    (hc : isBlank c = false) (hd : isBlank d = false) (cs : List Char) :
    trim (us ++ (c :: cs ++ [d]) ++ vs) = c :: cs ++ [d] := by
  rw [trim, List.append_assoc, skipBlank_append hu, List.cons_append, List.cons_append,
    skipBlank_cons hc, ← List.cons_append, trimRight_append_blank hv]
  exact trimRight_append_singleton hd (c :: cs)

/-- Blanks around a text are trimmed with those of the text. -/
theorem trim_append (hu : Blank us) (hv : Blank vs) (cs : List Char) :
    trim (us ++ cs ++ vs) = trim cs := by
  rw [trim, List.append_assoc, skipBlank_append hu, trim]
  obtain ⟨ws, hw, heq⟩ := exists_blank_append_skipBlank cs
  cases hcs : skipBlank cs with
  | nil =>
    rw [hcs, List.append_nil] at heq
    have hall : Blank (cs ++ vs) := (heq ▸ hw).append hv
    rw [(skipBlank_eq_nil_iff _).mpr hall]
  | cons c rest =>
    rw [heq, List.append_assoc, skipBlank_append hw, hcs, List.cons_append,
      skipBlank_cons (not_isBlank_of_skipBlank hcs), ← List.cons_append, trimRight_append_blank hv]

/-- A text is left alone by trimming if it has no blank at either end. -/
theorem trim_eq_self_iff : trim cs = cs ↔ Stops isBlank cs ∧ Stops isBlank cs.reverse := by
  constructor
  · intro h
    have hfront : Stops isBlank (trim cs) := by
      rw [← skipBlank_trim]
      exact stops_dropWhile isBlank _
    have hback : Stops isBlank (trim cs).reverse := by
      rw [trim, trimRight, List.reverse_reverse]
      exact stops_dropWhile isBlank _
    rw [h] at hfront hback
    exact ⟨hfront, hback⟩
  · rintro ⟨hfront, hback⟩
    have hskip : cs.reverse.dropWhile isBlank = cs.reverse := hback.skipBlank_eq
    rw [trim, hfront.skipBlank_eq, trimRight, hskip, List.reverse_reverse]

/-- A text without blanks is left alone by trimming. -/
theorem trim_of_not_blank (h : ∀ c ∈ cs, isBlank c = false) : trim cs = cs := by
  refine trim_eq_self_iff.mpr ⟨fun c rest heq => h c ?_, fun c rest heq => h c ?_⟩
  · rw [heq]
    exact List.mem_cons_self
  · rw [← List.mem_reverse, heq]
    exact List.mem_cons_self

end ReactiveView.Text
