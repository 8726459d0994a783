import ReactiveView.Proofs.Template.Repeat
/-!
# What is interpolated

A content is an interpolation of a text if it is the text between the marks, blanks apart. It has to
stay one when it is written as markup, and the text itself must hold no mark.

Results:
* `occurs_trim`: the blanks around a text hold no mark.
* `interpolated?_of_marks`, `escapeText_of_marks`: the text between marks, in the content and in its
  markup.
-/
namespace ReactiveView.Template

open Text Expression Markup

variable {content inner source : List Char}

theorem padded_trim (cs : List Char) : Padded (trim cs) cs := by
  obtain ⟨us, hu, hus⟩ := exists_blank_append_skipBlank cs
  obtain ⟨vs, hv, hvs⟩ := exists_trimRight_append_blank (skipBlank cs)
  refine ⟨us, vs, hu, hv, ?_⟩
  rw [List.append_assoc]
  exact hus.trans (congrArg (us ++ ·) hvs)

theorem occurs_pair_append_right {b : Char} {back : List Char} (h : ∀ c ∈ back, c ≠ b)
    (cs : List Char) : occurs [b, b] (cs ++ back) = occurs [b, b] cs := by
  induction cs with
  | nil =>
    have hback := occurs_pair_append h []
    rwa [List.append_nil] at hback
  | cons c cs ih =>
    have hhead : ((cs ++ back).head? == some b) = (cs.head? == some b) := by
      cases cs with
      | cons d cs => rfl
      | nil =>
        cases back with
        | nil => rfl
        | cons d back =>
          simp only [List.nil_append, List.head?_cons, List.head?_nil, Option.some_beq_some,
            Option.none_beq_some, beq_eq_false_iff_ne]
          exact h d List.mem_cons_self
    rw [List.cons_append, occurs_pair_cons, occurs_pair_cons, hhead, ih]

/-- The blanks around a text hold no mark. -/
theorem occurs_trim {b : Char} (hb : isBlank b = false) (cs : List Char) :
    occurs [b, b] (trim cs) = occurs [b, b] cs := by
  obtain ⟨us, vs, hu, hv, heq⟩ := padded_trim cs
  have hsplit : occurs [b, b] cs = occurs [b, b] (us ++ trim cs ++ vs) := congrArg _ heq
  rw [hsplit, occurs_pair_append_right fun c hc => ne_of_isBlank (hv c hc) hb,
    occurs_pair_append fun c hc => ne_of_isBlank (hu c hc) hb]

theorem hasMark_trim (cs : List Char) : hasMark (trim cs) = hasMark cs := by
  rw [hasMark, openMark, closeMark, occurs_trim (by decide), occurs_trim (by decide)]
  rfl

/-- The text between marks is interpolated if it holds no mark. -/
theorem interpolated?_of_marks (hcontent : trim content = openMark ++ inner ++ closeMark)
    (hinner : trim inner = trim source) (hmark : hasMark source = false)
    (hsome : trim source ≠ []) : interpolated? content = some (trim source) := by
  have hnone : hasMark inner = false := by rw [← hasMark_trim, hinner, hasMark_trim, hmark]
  have hempty : (trim source).isEmpty = false := by simpa using hsome
  rw [interpolated?, hcontent, between?_marks]
  simp only [hinner, hempty, Bool.false_eq_true, if_false]
  exact if_neg (by simpa [hasMark] using hnone)

theorem mem_of_mem_trim {c : Char} {cs : List Char} (h : c ∈ trim cs) : c ∈ cs := by
  obtain ⟨us, vs, -, -, heq⟩ := padded_trim cs
  rw [heq]
  exact List.mem_append_left _ (List.mem_append_right _ h)

theorem isBlank_or_mem_trim {c : Char} {cs : List Char} (h : c ∈ cs) :
    isBlank c ∨ c ∈ trim cs := by
  obtain ⟨us, vs, hu, hv, heq⟩ := padded_trim cs
  rw [heq, List.mem_append, List.mem_append] at h
  rcases h with (h | h) | h
  · exact .inl (hu c h)
  · exact .inr h
  · exact .inl (hv c h)

/-- The text between marks is written as it is if it holds nothing to escape. -/
theorem escapeText_of_marks (hcontent : trim content = openMark ++ inner ++ closeMark)
    (hinner : trim inner = trim source)
    (hsource : ∀ c ∈ source, c ≠ '&' ∧ c ≠ '<' ∧ c ≠ '>') : escapeText content = content := by
  have hblank : ∀ c, isBlank c → c ≠ '&' ∧ c ≠ '<' ∧ c ≠ '>' := fun c hc =>
    ⟨ne_of_isBlank hc (by decide), ne_of_isBlank hc (by decide), ne_of_isBlank hc (by decide)⟩
  have hbrace : ∀ c ∈ openMark ++ closeMark, c ≠ '&' ∧ c ≠ '<' ∧ c ≠ '>' := by
    simp [openMark, closeMark]
  have hmiddle : ∀ c ∈ inner, c ≠ '&' ∧ c ≠ '<' ∧ c ≠ '>' := by
    intro c hc
    rcases isBlank_or_mem_trim hc with hc | hc
    · exact hblank c hc
    · rw [hinner] at hc
      exact hsource c (mem_of_mem_trim hc)
  refine escapeText_eq_self fun c hc => ?_
  rcases isBlank_or_mem_trim hc with hc | hc
  · exact hblank c hc
  · rw [hcontent, List.mem_append, List.mem_append] at hc
    rcases hc with (hc | hc) | hc
    · exact hbrace c (List.mem_append_left _ hc)
    · exact hmiddle c hc
    · exact hbrace c (List.mem_append_right _ hc)

/-- An expression is not blank. -/
theorem trim_ne_nil_of_read {text : String} {e : Expression} (h : Expression.read text = .ok e) :
    trim text.toList ≠ [] := by
  obtain ⟨name, first, rest, segments, hname, ⟨us, vs, -, -, hfirst⟩, -, heq, -⟩ :=
    ((read_spells text e).mp h).1.trim
  intro hnil
  rw [heq, hfirst, List.append_eq_nil_iff, List.append_eq_nil_iff, List.append_eq_nil_iff] at hnil
  exact hname.ne_nil hnil.1.1.2

end ReactiveView.Template
