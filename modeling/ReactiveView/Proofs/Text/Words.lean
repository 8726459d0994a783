import ReactiveView.Text.Blank
/-!
# Words

A word of a text is a run of characters, none of them blank, that a blank or an end of the text
bounds on either side. Splitting finds the words one after the other; a blank may stand anywhere in
between, since what is split at a blank is split on both sides of it.

Results:
* `words_append_cons`: a blank parts the words of a text.
* `mem_words_iff`: splitting finds the words.
-/
namespace ReactiveView.Text

/-- A run without blanks, as long as it can be where it stands in a text. -/
def IsWord (word cs : List Char) : Prop :=
  word ≠ [] ∧ (∀ c ∈ word, isBlank c = false) ∧
    ∃ us vs, cs = us ++ word ++ vs ∧ (∀ c ∈ us.getLast?, isBlank c) ∧ ∀ c ∈ vs.head?, isBlank c

variable {word cs : List Char}

/-- The only word of a text without blanks is the text. -/
theorem mem_words_of_not_blank (h : ∀ c ∈ cs, isBlank c = false) :
    word ∈ words cs ↔ cs ≠ [] ∧ word = cs := by
  rw [words, List.splitOnP_eq_singleton h]
  cases cs <;> simp

/-- A blank parts the words of a text. -/
theorem words_append_cons {c : Char} (hc : isBlank c) (us vs : List Char) :
    words (us ++ c :: vs) = words us ++ words vs := by
  rw [words, List.splitOnP_append_cons us vs hc, List.filter_append]
  rfl

/-- What stands in front of a text leaves its words alone, if it ends in a blank or is nothing. -/
theorem mem_words_append {us : List Char} (hus : ∀ c ∈ us.getLast?, isBlank c)
    (h : word ∈ words cs) : word ∈ words (us ++ cs) := by
  rcases List.eq_nil_or_concat us with rfl | ⟨us, c, rfl⟩
  · exact h
  · rw [List.concat_eq_append] at hus ⊢
    have hc : isBlank c := hus c (by simp)
    rw [List.append_assoc, List.singleton_append, words_append_cons hc]
    exact List.mem_append_right _ h

/-- A run without blanks is a word where it is all that stands in front of a blank or the end. -/
theorem isWord_of_append {vs : List Char} (hne : word ≠ []) (hb : ∀ c ∈ word, isBlank c = false)
    (hvs : ∀ c ∈ vs.head?, isBlank c) : IsWord word (word ++ vs) :=
  ⟨hne, hb, [], vs, rfl, by simp, hvs⟩

/-- The words behind a blank are words of the whole text. -/
theorem IsWord.append (h : IsWord word cs) {c : Char} (hc : isBlank c) (front : List Char) :
    IsWord word (front ++ c :: cs) := by
  obtain ⟨hne, hb, us, vs, rfl, hus, hvs⟩ := h
  refine ⟨hne, hb, front ++ c :: us, vs, by simp, fun d hd => ?_, hvs⟩
  rw [List.getLast?_append, List.getLast?_cons, Option.some_or] at hd
  cases hlast : us.getLast? with
  | none =>
    obtain rfl : c = d := by simpa [hlast] using hd
    exact hc
  | some e =>
    obtain rfl : e = d := by simpa [hlast] using hd
    exact hus e hlast

theorem isWord_of_mem_words (h : word ∈ words cs) : IsWord word cs := by
  induction hn : cs.length using Nat.strongRecOn generalizing cs with
  | ind n ih =>
    -- the text up to its first blank, if it has one
    have hsplit := List.takeWhile_append_dropWhile (p := fun c => !isBlank c) (l := cs)
    have hfront : ∀ c ∈ cs.takeWhile fun c => !isBlank c, isBlank c = false := fun c hc => by
      simpa using List.all_eq_true.mp List.all_takeWhile c hc
    generalize cs.takeWhile (fun c => !isBlank c) = front at hsplit hfront
    cases hrest : cs.dropWhile fun c => !isBlank c with
    | nil =>
      obtain rfl : front = cs := by rw [← hsplit, hrest, List.append_nil]
      obtain ⟨hne, rfl⟩ := (mem_words_of_not_blank hfront).mp h
      have hword : IsWord _ (_ ++ []) := isWord_of_append hne hfront (by simp)
      rwa [List.append_nil] at hword
    | cons c rest =>
      have hc : isBlank c := by
        simpa [hrest] using List.head_dropWhile_not (fun c => !isBlank c) (l := cs) (by simp [hrest])
      rw [hrest] at hsplit
      subst hsplit
      rw [words_append_cons hc] at h
      rcases List.mem_append.mp h with hin | hin
      · obtain ⟨hne, rfl⟩ := (mem_words_of_not_blank hfront).mp hin
        exact isWord_of_append hne hfront (by simpa using hc)
      · have hlt : rest.length < n := by
          rw [← hn, List.length_append, List.length_cons]
          omega
        exact (ih rest.length hlt hin rfl).append hc front

/-- Splitting finds the words of a text. -/
theorem mem_words_iff : word ∈ words cs ↔ IsWord word cs := by
  constructor
  · exact isWord_of_mem_words
  · rintro ⟨hne, hb, us, vs, rfl, hus, hvs⟩
    have hself : word ∈ words word := (mem_words_of_not_blank hb).mpr ⟨hne, rfl⟩
    have hfront : word ∈ words (word ++ vs) := by
      cases vs with
      | nil => rwa [List.append_nil]
      | cons c vs =>
        rw [words_append_cons (hvs c rfl)]
        exact List.mem_append_left _ hself
    rw [List.append_assoc]
    exact mem_words_append hus hfront

end ReactiveView.Text
