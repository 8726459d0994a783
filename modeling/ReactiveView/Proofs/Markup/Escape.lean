import ReactiveView.Markup.Reference
import ReactiveView.Proofs.Text.Characters
/-!
# Escapes and references

Writing escapes the characters that markup would take for its own, and reading replaces references.
Each escape is one reference, so reading undoes writing character by character.

Results:
* `decode_escapeText`, `decode_escapeAttribute`: reading an escaped text gives the text back.
* `ne_of_mem_escapeText`, `ne_of_mem_escapeAttribute`: what an escaped text is free of.
-/
namespace ReactiveView.Markup

open Text

theorem decode_nil : decode [] = [] := by
  unfold decode
  rfl

theorem decode_cons {c : Char} (h : c ≠ '&') (cs : List Char) : decode (c :: cs) = c :: decode cs := by
  rw [decode, if_neg h]

theorem decode_reference {cs rest : List Char} {c : Char} (h : reference? cs = some (c, rest)) :
    decode ('&' :: cs) = c :: decode rest := by
  rw [decode, if_pos rfl]
  split
  · next d rest' h' =>
    rw [h] at h'
    cases h'
    rfl
  · next h' => rw [h] at h'; cases h'

/-- A reference by name is read up to its semicolon. -/
theorem reference?_name {name : List Char} {c : Char} (hn : name.all fun d => !endsReference d)
    (hc : referent? name = some c) (rest : List Char) :
    reference? (name ++ ';' :: rest) = some (c, rest) := by
  have hstop : Stops (fun d => !endsReference d) (';' :: rest) := stops_cons (by decide) rest
  have hname : ∀ d ∈ name, (!endsReference d) = true := List.all_eq_true.mp hn
  unfold reference?
  rw [dropWhile_append_stop hname hstop, takeWhile_append_stop hname hstop]
  simp only [hc, Option.map_some]

theorem decode_name (name : List Char) {c : Char} (hn : name.all fun d => !endsReference d)
    (hc : referent? name = some c) (rest : List Char) :
    decode ('&' :: (name ++ ';' :: rest)) = c :: decode rest :=
  decode_reference (reference?_name hn hc rest)

theorem decode_escapeTextChar (c : Char) (rest : List Char) :
    decode (escapeTextChar c ++ rest) = c :: decode rest := by
  unfold escapeTextChar
  split
  · next h =>
    subst h
    exact decode_name ['a', 'm', 'p'] (by decide) (by decide) rest
  split
  · next h =>
    subst h
    exact decode_name ['l', 't'] (by decide) (by decide) rest
  split
  · next h =>
    subst h
    exact decode_name ['g', 't'] (by decide) (by decide) rest
  · next h _ _ => exact decode_cons h rest

theorem decode_escapeAttributeChar (c : Char) (rest : List Char) :
    decode (escapeAttributeChar c ++ rest) = c :: decode rest := by
  unfold escapeAttributeChar
  split
  · next h =>
    subst h
    exact decode_name ['a', 'm', 'p'] (by decide) (by decide) rest
  split
  · next h =>
    subst h
    exact decode_name ['q', 'u', 'o', 't'] (by decide) (by decide) rest
  · next h _ => exact decode_cons h rest

theorem decode_escapeText (cs : List Char) : decode (escapeText cs) = cs := by
  induction cs with
  | nil => exact decode_nil
  | cons c cs ih =>
    rw [escapeText, List.flatMap_cons, decode_escapeTextChar]
    exact congrArg (c :: ·) ih

theorem decode_escapeAttribute (cs : List Char) : decode (escapeAttribute cs) = cs := by
  induction cs with
  | nil => exact decode_nil
  | cons c cs ih =>
    rw [escapeAttribute, List.flatMap_cons, decode_escapeAttributeChar]
    exact congrArg (c :: ·) ih

theorem ne_of_mem_escapeText {cs : List Char} {c : Char} (h : c ∈ escapeText cs) :
    c ≠ '<' ∧ c ≠ '>' := by
  have hne : ∀ {ds : List Char}, c ∈ ds → '<' ∉ ds ∧ '>' ∉ ds → c ≠ '<' ∧ c ≠ '>' :=
    fun hc hds => ⟨ne_of_mem_of_not_mem hc hds.1, ne_of_mem_of_not_mem hc hds.2⟩
  obtain ⟨d, -, hd⟩ := List.mem_flatMap.mp h
  unfold escapeTextChar at hd
  split at hd
  · exact hne hd (by decide)
  split at hd
  · exact hne hd (by decide)
  split at hd
  · exact hne hd (by decide)
  · next hlt hgt =>
    rw [List.mem_singleton.mp hd]
    exact ⟨hlt, hgt⟩

theorem ne_of_mem_escapeAttribute {cs : List Char} {c : Char} (h : c ∈ escapeAttribute cs) :
    c ≠ '"' := by
  obtain ⟨d, -, hd⟩ := List.mem_flatMap.mp h
  unfold escapeAttributeChar at hd
  split at hd
  · exact ne_of_mem_of_not_mem hd (by decide : '"' ∉ "&amp;".toList)
  split at hd
  · exact ne_of_mem_of_not_mem hd (by decide : '"' ∉ "&quot;".toList)
  · next hq => rwa [List.mem_singleton.mp hd]

theorem escapeText_ne_nil {cs : List Char} (h : cs ≠ []) : escapeText cs ≠ [] := by
  intro hnil
  have := decode_escapeText cs
  rw [hnil, decode_nil] at this
  exact h this.symm

end ReactiveView.Markup
