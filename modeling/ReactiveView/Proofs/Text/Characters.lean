import ReactiveView.Expression.Reader
/-!
# Runs of characters

What `skipBlank` and the runs `takeWhile` and `dropWhile` do to a text whose front is known, and
which character classes exclude each other. Readers are reasoned about through these facts only.

Results:
* `isNameChar_eq_false_of_isBlank`: no blank, of any script, is part of a name.
* `takeWhile_append_stop`, `dropWhile_append_stop`: a run ends where the next character is outside
  its class.
-/
namespace ReactiveView.Text

/-- A text of blanks only. -/
def Blank (cs : List Char) : Prop := ∀ c ∈ cs, isBlank c

/-- A text whose first character, if it has one, is outside a class. -/
def Stops (p : Char → Bool) (cs : List Char) : Prop := ∀ c rest, cs = c :: rest → p c = false

theorem blank_nil : Blank [] := by simp [Blank]

theorem Blank.append {us vs : List Char} (hu : Blank us) (hv : Blank vs) : Blank (us ++ vs) := by
  intro c hc
  rcases List.mem_append.mp hc with h | h
  · exact hu c h
  · exact hv c h

theorem Blank.of_append_left {us vs : List Char} (h : Blank (us ++ vs)) : Blank us :=
  fun c hc => h c (List.mem_append_left vs hc)

theorem stops_nil (p : Char → Bool) : Stops p [] := by simp [Stops]

theorem Stops.append {p : Char → Bool} {us vs : List Char} (hu : Stops p us) (hv : Stops p vs) :
    Stops p (us ++ vs) := by
  cases us with
  | nil => exact hv
  | cons c us =>
    intro d rest heq
    cases heq
    exact hu c us rfl

theorem Stops.of_append {p : Char → Bool} {us vs : List Char} (h : Stops p (us ++ vs)) :
    Stops p us := by
  rintro c rest rfl
  exact h c _ rfl

theorem stops_cons {p : Char → Bool} {c : Char} (h : p c = false) (cs : List Char) :
    Stops p (c :: cs) := by
  intro d rest heq
  cases heq
  exact h

theorem Blank.stops {p : Char → Bool} {us vs : List Char} (hu : Blank us)
    (hp : ∀ c, isBlank c → p c = false) (hv : Stops p vs) : Stops p (us ++ vs) := by
  cases us with
  | nil => exact hv
  | cons c us => exact stops_cons (hp c (hu c (by simp))) _

theorem Blank.stops_self {p : Char → Bool} {us : List Char} (hu : Blank us)
    (hp : ∀ c, isBlank c → p c = false) : Stops p us := by
  rw [← List.append_nil us]
  exact hu.stops hp (stops_nil p)

theorem takeWhile_append_stop {p : Char → Bool} {us vs : List Char} (hu : ∀ c ∈ us, p c)
    (hv : Stops p vs) : (us ++ vs).takeWhile p = us := by
  rw [List.takeWhile_append_of_pos hu]
  cases vs with
  | nil => simp
  | cons c rest => rw [List.takeWhile_cons_of_neg (by simp [hv c rest rfl]), List.append_nil]

theorem dropWhile_append_stop {p : Char → Bool} {us vs : List Char} (hu : ∀ c ∈ us, p c)
    (hv : Stops p vs) : (us ++ vs).dropWhile p = vs := by
  rw [List.dropWhile_append_of_pos hu]
  cases vs with
  | nil => rfl
  | cons c rest => rw [List.dropWhile_cons_of_neg (by simp [hv c rest rfl])]

theorem Stops.takeWhile_eq_nil {p : Char → Bool} {cs : List Char} (h : Stops p cs) :
    cs.takeWhile p = [] := by
  cases cs with
  | nil => rfl
  | cons c rest => rw [List.takeWhile_cons_of_neg (by simp [h c rest rfl])]

/-- Where a run of a class ends is determined by the text. -/
theorem append_inj_of_stops {p : Char → Bool} {us vs us' vs' : List Char} (hu : ∀ c ∈ us, p c)
    (hv : Stops p vs) (hu' : ∀ c ∈ us', p c) (hv' : Stops p vs') (h : us ++ vs = us' ++ vs') :
    us = us' ∧ vs = vs' := by
  have htake := congrArg (List.takeWhile p) h
  have hdrop := congrArg (List.dropWhile p) h
  rw [takeWhile_append_stop hu hv, takeWhile_append_stop hu' hv'] at htake
  rw [dropWhile_append_stop hu hv, dropWhile_append_stop hu' hv'] at hdrop
  exact ⟨htake, hdrop⟩

/-- A character outside a class stands behind a run of the class. -/
theorem exists_append_of_run {p : Char → Bool} {us vs front rest : List Char} {c : Char}
    (hu : ∀ d ∈ us, p d) (hc : p c = false) (h : us ++ vs = front ++ c :: rest) :
    ∃ ws, front = us ++ ws ∧ vs = ws ++ c :: rest := by
  rcases List.append_eq_append_iff.mp h with hfront | ⟨ws, rfl, hrest⟩
  · exact hfront
  · cases ws with
    | nil => exact ⟨[], by simp, hrest.symm⟩
    | cons d ws =>
      obtain rfl := (List.cons.inj hrest).1
      rw [hu c (by simp)] at hc
      cases hc

theorem skipBlank_append {us : List Char} (hu : Blank us) (vs : List Char) :
    skipBlank (us ++ vs) = skipBlank vs := List.dropWhile_append_of_pos hu

theorem skipBlank_cons {c : Char} (h : isBlank c = false) (cs : List Char) :
    skipBlank (c :: cs) = c :: cs := List.dropWhile_cons_of_neg (by simp [h])

theorem skipBlank_skipBlank (cs : List Char) : skipBlank (skipBlank cs) = skipBlank cs := by
  cases h : skipBlank cs with
  | nil => rfl
  | cons c rest => exact skipBlank_cons (not_isBlank_of_skipBlank h) rest

theorem stops_dropWhile (p : Char → Bool) (cs : List Char) : Stops p (cs.dropWhile p) := by
  intro c rest heq
  have hne : cs.dropWhile p ≠ [] := by simp [heq]
  simpa [heq] using List.head_dropWhile_not p hne

/-- A text that does not start with a blank keeps all of it when blanks are skipped. -/
theorem Stops.skipBlank_eq {cs : List Char} (h : Stops isBlank cs) : skipBlank cs = cs := by
  cases cs with
  | nil => rfl
  | cons c cs => exact skipBlank_cons (h c cs rfl) cs

/-- A text is its leading blanks, then what follows them. -/
theorem exists_blank_append_skipBlank (cs : List Char) :
    ∃ us, Blank us ∧ cs = us ++ skipBlank cs := by
  refine ⟨cs.takeWhile isBlank, fun c hc => ?_, List.takeWhile_append_dropWhile.symm⟩
  have := List.all_takeWhile (p := isBlank) (l := cs)
  exact List.all_eq_true.mp this c hc

/-- A text is the one without trailing blanks, then these. -/
theorem exists_trimRight_append_blank (cs : List Char) :
    ∃ us, Blank us ∧ cs = trimRight cs ++ us := by
  obtain ⟨us, hu, heq⟩ := exists_blank_append_skipBlank cs.reverse
  refine ⟨us.reverse, fun c hc => hu c (List.mem_reverse.mp hc), ?_⟩
  have h := congrArg List.reverse heq
  rwa [List.reverse_reverse, List.reverse_append] at h

/-! ## Lengths in bytes -/

theorem utf8ByteSize_ofList (cs : List Char) : (String.ofList cs).utf8ByteSize = byteLength cs := by
  induction cs with
  | nil => rfl
  | cons c cs ih =>
    rw [String.ofList_cons, String.utf8ByteSize_append, String.utf8ByteSize_singleton, ih,
      byteLength_cons]

theorem byteLength_pos {cs : List Char} (h : cs ≠ []) : 0 < byteLength cs := by
  obtain ⟨c, more, rfl⟩ := List.exists_cons_of_ne_nil h
  exact Nat.lt_of_lt_of_le c.utf8Size_pos (Nat.le_add_right _ _)

/-- Two fronts of a text that are as long as each other in UTF-8 are the same. -/
theorem eq_of_byteLength_eq {us vs us' vs' : List Char} (h : us ++ vs = us' ++ vs')
    (hlen : byteLength us = byteLength us') : us = us' := by
  rcases List.append_eq_append_iff.mp h with ⟨ws, rfl, -⟩ | ⟨ws, rfl, -⟩
  all_goals
    cases ws with
    | nil => simp
    | cons c ws =>
      have hc := c.utf8Size_pos
      simp only [byteLength_append, byteLength_cons] at hlen
      omega

/-- What is further in front than a text ends lies within the text. -/
theorem exists_append_of_byteLength_lt {us vs cs ds : List Char} {c : Char}
    (h : us ++ c :: vs = cs ++ ds) (hlt : byteLength us < byteLength cs) :
    ∃ mid, cs = us ++ c :: mid ∧ vs = mid ++ ds := by
  rcases List.append_eq_append_iff.mp h with ⟨ws, rfl, hrest⟩ | ⟨ws, rfl, -⟩
  · cases ws with
    | nil => simp at hlt
    | cons d ws =>
      obtain ⟨rfl, rfl⟩ := List.cons.inj hrest
      exact ⟨ws, rfl, rfl⟩
  · rw [byteLength_append] at hlt
    omega

/-! ## Classes that exclude each other -/

/-- The code points of the blanks. -/
def blankCodes : List Nat :=
  [0x09, 0x0A, 0x0B, 0x0C, 0x0D, 0x20, 0x85, 0xA0, 0x1680, 0x2000, 0x2001, 0x2002, 0x2003, 0x2004,
    0x2005, 0x2006, 0x2007, 0x2008, 0x2009, 0x200A, 0x2028, 0x2029, 0x202F, 0x205F, 0x3000]

theorem toNat_mem_blankCodes {c : Char} (h : isBlank c) : c.toNat ∈ blankCodes := by
  simp only [isBlank, Bool.or_eq_true, Bool.and_eq_true, decide_eq_true_eq, beq_iff_eq] at h
  simp only [blankCodes, List.mem_cons, List.not_mem_nil, or_false]
  omega

theorem not_inRanges_of_mem_blankCodes : ∀ n ∈ blankCodes,
    inRanges alphabeticRanges n = false ∧ inRanges numericRanges n = false := by
  decide +kernel

theorem ne_of_isBlank {c d : Char} (h : isBlank c) (hd : isBlank d = false) : c ≠ d := by
  rintro rfl
  simp [hd] at h

theorem isDigit_iff {c : Char} : isDigit c ↔ 48 ≤ c.toNat ∧ c.toNat ≤ 57 := by
  simp only [isDigit, Bool.and_eq_true, decide_eq_true_eq]
  exact Iff.rfl

theorem isBasicLetter_iff {c : Char} :
    isBasicLetter c ↔ (97 ≤ c.toNat ∧ c.toNat ≤ 122) ∨ (65 ≤ c.toNat ∧ c.toNat ≤ 90) := by
  simp only [isBasicLetter, Bool.or_eq_true, Bool.and_eq_true, decide_eq_true_eq]
  exact Iff.rfl

theorem isDigit_eq_false_of_isBlank {c : Char} (h : isBlank c) : isDigit c = false := by
  have hm := toNat_mem_blankCodes h
  simp only [blankCodes, List.mem_cons, List.not_mem_nil, or_false] at hm
  rw [Bool.eq_false_iff, ne_eq, isDigit_iff]
  omega

theorem isBasicLetter_eq_false_of_isBlank {c : Char} (h : isBlank c) :
    isBasicLetter c = false := by
  have hm := toNat_mem_blankCodes h
  simp only [blankCodes, List.mem_cons, List.not_mem_nil, or_false] at hm
  rw [Bool.eq_false_iff, ne_eq, isBasicLetter_iff]
  omega

/-- No blank is a letter or a number. -/
theorem isAlphanumeric_eq_false_of_isBlank {c : Char} (h : isBlank c) :
    isAlphanumeric c = false := by
  obtain ⟨ha, hn⟩ := not_inRanges_of_mem_blankCodes _ (toNat_mem_blankCodes h)
  simp [isAlphanumeric, ha, hn, isDigit_eq_false_of_isBlank h, isBasicLetter_eq_false_of_isBlank h]

/-- No blank is part of a name. -/
theorem isNameChar_eq_false_of_isBlank {c : Char} (h : isBlank c) :
    Expression.isNameChar c = false := by
  have hu : c ≠ '_' := ne_of_isBlank h rfl
  have hd : c ≠ '$' := ne_of_isBlank h rfl
  simp [Expression.isNameChar, isAlphanumeric_eq_false_of_isBlank h, hu, hd]

theorem isBlank_eq_false_of_isNameChar {c : Char} (h : Expression.isNameChar c) :
    isBlank c = false := by
  rw [Bool.eq_false_iff]
  intro hb
  rw [isNameChar_eq_false_of_isBlank hb] at h
  cases h

theorem isBlank_eq_false_of_isDigit {c : Char} (h : isDigit c) : isBlank c = false := by
  rw [Bool.eq_false_iff]
  intro hb
  rw [isDigit_eq_false_of_isBlank hb] at h
  cases h

/-! ## Lower case -/

theorem lower_eq_or (c : Char) : lower c = c ∨ ∃ n < 26, lower c = Char.ofNat (n + 97) := by
  unfold lower
  split
  · next h =>
    have h2 : 'A'.toNat ≤ c.toNat ∧ c.toNat ≤ 'Z'.toNat := by
      simp only [Bool.and_eq_true, decide_eq_true_eq] at h
      exact h
    have e1 : 'A'.toNat = 65 := rfl
    have e2 : 'Z'.toNat = 90 := rfl
    exact .inr ⟨c.toNat - 65, by omega, congrArg Char.ofNat (by omega)⟩
  · exact .inl rfl

/-- A letter or a number stays one in lower case. -/
theorem isAlphanumeric_lower {c : Char} (h : isAlphanumeric c) : isAlphanumeric (lower c) := by
  rcases lower_eq_or c with heq | ⟨n, hn, heq⟩
  · rwa [heq]
  · have hletters : ∀ n < 26, isAlphanumeric (Char.ofNat (n + 97)) := by decide
    rw [heq]
    exact hletters n hn

end ReactiveView.Text
