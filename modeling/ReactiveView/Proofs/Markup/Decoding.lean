import ReactiveView.Proofs.Markup.Escape
/-!
# What decoding is

A reference runs from an `&` to the first `;` behind it, however far away that is. If what stands
between them names no character, the `&` stands for itself and decoding goes on right behind it, so
the text in between is looked at again. `Decodes` says this without a search. No name of a character
holds an `&`, which is why a search that stops at the next one misses no reference.

Escaping makes one reference of every character that it does not keep, and decoding takes one layer
of references off: a text that looks like a reference itself comes back as it was.

Results:
* `reference?_eq_some_iff`: which texts behind an `&` are references.
* `decode_eq_iff`: what is decoded, and to what.
* `decode_escape`: decoding undoes both escapes, which are free of what they escape and go piece by
  piece.
-/
namespace ReactiveView

theorem Text.isSome_digitValue_of_mem {base n m : Nat} {cs : List Char} {c : Char}
    (h : digitsValue base n cs = some m) (hc : c ∈ cs) : (digitValue base c).isSome := by
  induction cs generalizing n with
  | nil => cases hc
  | cons d cs ih =>
    obtain ⟨v, hv, hrest⟩ := Option.bind_eq_some_iff.mp h
    rcases List.mem_cons.mp hc with rfl | hc
    · rw [hv]
      rfl
    · exact ih hrest hc

theorem Text.isSome_digitValue_of_mem_numeral {base limit m : Nat} {cs : List Char} {c : Char}
    (h : numeral base limit cs = some m) (hc : c ∈ cs) (hplus : c ≠ '+') :
    (digitValue base c).isSome := by
  -- the digits are the text, or what is behind its plus sign
  have key : ∀ ds : List Char,
      (if ds.isEmpty then none else (digitsValue base 0 ds).filter (· < limit)) = some m →
      c ∈ ds → (digitValue base c).isSome := by
    intro ds hds hmem
    split at hds
    · cases hds
    · exact isSome_digitValue_of_mem (Option.filter_eq_some_iff.mp hds).1 hmem
  simp only [numeral] at h
  split at h
  · exact key _ h ((List.mem_cons.mp hc).resolve_left hplus)
  · exact key _ h hc

namespace Markup

open Text

/-! ## References -/

theorem amp_not_mem_of_numeral {base limit m : Nat} {cs : List Char}
    (hbase : digitValue base '&' = none) (h : numeral base limit cs = some m) : '&' ∉ cs := by
  intro hmem
  have hdigit := isSome_digitValue_of_mem_numeral h hmem (by decide)
  rw [hbase] at hdigit
  cases hdigit

/-- No name of a character holds an `&`. -/
theorem amp_not_mem_of_referent? {name : List Char} {c : Char} (h : referent? name = some c) :
    '&' ∉ name := by
  unfold referent? at h
  split at h
  · next d hd =>
    obtain ⟨front, back, hnamed, -⟩ := List.lookup_eq_some_iff.mp hd
    have hfree : ∀ p ∈ named, '&' ∉ p.1.toList := by decide
    have hname := hfree (String.ofList name, d) (by rw [hnamed]; simp)
    rwa [String.toList_ofList] at hname
  · split at h
    · obtain ⟨n, hn, -⟩ := Option.bind_eq_some_iff.mp h
      simpa using amp_not_mem_of_numeral (by decide) hn
    · obtain ⟨n, hn, -⟩ := Option.bind_eq_some_iff.mp h
      simpa using amp_not_mem_of_numeral (by decide) hn
    · obtain ⟨n, hn, -⟩ := Option.bind_eq_some_iff.mp h
      simpa using amp_not_mem_of_numeral (by decide) hn
    · cases h

/-- The text behind an `&` is a reference if what stands in front of its first `;` names a
character. -/
theorem reference?_eq_some_iff {cs rest : List Char} {c : Char} :
    reference? cs = some (c, rest) ↔
      ∃ name, cs = name ++ ';' :: rest ∧ ';' ∉ name ∧ referent? name = some c := by
  constructor
  · intro h
    unfold reference? at h
    split at h
    · next more hmore =>
      obtain ⟨d, hd, hpair⟩ := Option.map_eq_some_iff.mp h
      cases hpair
      refine ⟨_, ?_, fun hmem => ?_, hd⟩
      · rw [← hmore, List.takeWhile_append_dropWhile]
      · have hall := List.all_takeWhile (p := fun d => !endsReference d) (l := cs)
        exact absurd (List.all_eq_true.mp hall ';' hmem) (by decide)
    · cases h
  · rintro ⟨name, rfl, hend, hname⟩
    have hamp := amp_not_mem_of_referent? hname
    refine reference?_name (List.all_eq_true.mpr fun d hd => ?_) hname rest
    simp [endsReference, ne_of_mem_of_not_mem hd hend, ne_of_mem_of_not_mem hd hamp]

/-! ## Decoding -/

/-- A text and what is decoded from it. -/
inductive Decodes : List Char → List Char → Prop
  | nil : Decodes [] []
  | keep {cs ds : List Char} {c : Char} (hc : c ≠ '&') (h : Decodes cs ds) :
    Decodes (c :: cs) (c :: ds)
  | reference {name rest ds : List Char} {c : Char} (hend : ';' ∉ name)
      (hname : referent? name = some c) (h : Decodes rest ds) :
    Decodes ('&' :: (name ++ ';' :: rest)) (c :: ds)
  | bare {cs ds : List Char}
      (hnone : ∀ name rest, cs = name ++ ';' :: rest → ';' ∉ name → referent? name = none)
      (h : Decodes cs ds) : Decodes ('&' :: cs) ('&' :: ds)

theorem decode_bare {cs : List Char} (h : reference? cs = none) :
    decode ('&' :: cs) = '&' :: decode cs := by
  rw [decode, if_pos rfl]
  split
  · next d rest h' =>
    rw [h] at h'
    cases h'
  · rfl

theorem decodes_decode (cs : List Char) : Decodes cs (decode cs) := by
  fun_induction decode cs with
  | case1 => exact .nil
  | case2 cs d rest h hlt ih =>
    obtain ⟨name, rfl, hend, hname⟩ := reference?_eq_some_iff.mp h
    exact .reference hend hname ih
  | case3 cs h ih =>
    refine .bare (fun name rest hcs hend => ?_) ih
    refine Option.eq_none_iff_forall_ne_some.mpr fun c hname => ?_
    rw [reference?_eq_some_iff.mpr ⟨name, hcs, hend, hname⟩] at h
    cases h
  | case4 c cs hc ih => exact .keep hc ih

theorem Decodes.decode_eq {cs ds : List Char} (h : Decodes cs ds) : decode cs = ds := by
  induction h with
  | nil => exact decode_nil
  | keep hc h ih => rw [decode_cons hc, ih]
  | reference hend hname h ih =>
    rw [decode_reference (reference?_eq_some_iff.mpr ⟨_, rfl, hend, hname⟩), ih]
  | bare hnone h ih =>
    have hno : reference? _ = none := Option.eq_none_iff_forall_ne_some.mpr fun p hp => by
      obtain ⟨name, hcs, hend, hname⟩ := reference?_eq_some_iff.mp hp
      rw [hnone name _ hcs hend] at hname
      cases hname
    rw [decode_bare hno, ih]

theorem decode_eq_iff {cs ds : List Char} : decode cs = ds ↔ Decodes cs ds := by
  constructor
  · rintro rfl
    exact decodes_decode cs
  · exact Decodes.decode_eq

/-- Decoding looks for the end of a reference as far as the first `;` and goes on right behind an `&`
that starts none; it undoes both escapes. An escaped text holds no angle bracket, an escaped value no
double quote, and the escape of two texts in a row is that of the one, then that of the other. -/
theorem decode_escape (t u : List Char) :
    (∀ cs ds, decode cs = ds ↔ Decodes cs ds) ∧
    decode (escapeText t) = t ∧ decode (escapeAttribute t) = t ∧
    ('<' ∉ escapeText t ∧ '>' ∉ escapeText t) ∧ '"' ∉ escapeAttribute t ∧
    escapeText (t ++ u) = escapeText t ++ escapeText u ∧
    escapeAttribute (t ++ u) = escapeAttribute t ++ escapeAttribute u :=
  ⟨fun _ _ => decode_eq_iff, decode_escapeText t, decode_escapeAttribute t,
    ⟨fun h => (ne_of_mem_escapeText h).1 rfl, fun h => (ne_of_mem_escapeText h).2 rfl⟩,
    fun h => ne_of_mem_escapeAttribute h rfl, escapeText_append t u, escapeAttribute_append t u⟩

end Markup

end ReactiveView
