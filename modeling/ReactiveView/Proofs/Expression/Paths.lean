import ReactiveView.Proofs.Expression.Grammar
/-!
# Paths as expressions

A path that starts with a field is written in the form of an expression. If its fields are names and
its indices have 64 bits, every segment is written as the member that it is: a name behind a point
ends where the next point or bracket stands, and the digits of an index end at its bracket. There
are no blanks, so the text is the source of the expression as it is.

Results:
* `members_tailText`: the segments behind the first are written as members.
* `read_pathText`: the text of a path is read as an expression with this path.
-/
namespace ReactiveView

open Text Expression

/-- A path that an expression can lead along: it starts with a field, its fields are names, and its
indices have 64 bits. -/
structure Path.Spellable (p : Path) : Prop where
  head : ∃ name rest, p = .field name :: rest
  field : ∀ name, .field name ∈ p → Expression.IsName name.toList
  index : ∀ n, .index n ∈ p → n < indexLimit

namespace Expression

variable {segments : List Segment}

/-- The segments behind the first are written as members. -/
theorem members_tailText (hfield : ∀ name, .field name ∈ segments → IsName name.toList)
    (hindex : ∀ n, .index n ∈ segments → n < indexLimit) :
    Members (Path.tailText segments) segments := by
  induction segments with
  | nil => exact .nil
  | cons s segments ih =>
    have hmore := ih (fun name h => hfield name (List.mem_cons_of_mem s h))
      fun n h => hindex n (List.mem_cons_of_mem s h)
    cases s with
    | field name =>
      have hmember := Member.name (padded_self ['.']) (hfield name List.mem_cons_self)
        (padded_self name.toList)
      rw [String.ofList_toList] at hmember
      exact .cons hmember hmore
    | index n =>
      have hmember := Member.index (padded_self ['['])
        (isIndex_decimal (hindex n List.mem_cons_self)) (padded_self (decimal n)) (padded_self [']'])
      have htext : Path.tailText (.index n :: segments) =
          ['['] ++ decimal n ++ [']'] ++ Path.tailText segments := by simp [Path.tailText]
      rw [htext]
      exact .cons hmember hmore

/-- No blank stands in a segment behind the first. -/
theorem isBlank_eq_false_of_mem_tailText
    (hfield : ∀ name, .field name ∈ segments → IsName name.toList) :
    ∀ c ∈ Path.tailText segments, isBlank c = false := by
  induction segments with
  | nil => simp [Path.tailText]
  | cons s segments ih =>
    have hmore := ih fun name h => hfield name (List.mem_cons_of_mem s h)
    intro c hc
    cases s with
    | field name =>
      rcases List.mem_append.mp hc with hname | hc
      · rcases List.mem_cons.mp hname with rfl | hname
        · rfl
        · exact isBlank_eq_false_of_isNameChar ((hfield name List.mem_cons_self).chars c hname)
      · exact hmore c hc
    | index n =>
      rcases List.mem_append.mp hc with hdigits | hc
      · rcases List.mem_cons.mp hdigits with rfl | hdigits
        · rfl
        · exact isBlank_eq_false_of_isDigit (isDigit_of_mem_decimal hdigits)
      · rcases List.mem_cons.mp hc with rfl | hc
        · rfl
        · exact hmore c hc

/-- The text of a path that starts with a field, whose fields are names and whose indices have 64
bits, is read as an expression that is no call, has this path and has the text as its source. -/
theorem read_pathText {p : Path} (h : p.Spellable) :
    ∃ e, read p.text = .ok e ∧ e.isCall = false ∧ e.path = p ∧ e.source = p.text := by
  obtain ⟨name, rest, rfl⟩ := h.head
  have hname : IsName name.toList := h.field name List.mem_cons_self
  have hfield : ∀ other, .field other ∈ rest → IsName other.toList := fun other hin =>
    h.field other (List.mem_cons_of_mem _ hin)
  have hmembers := members_tailText hfield fun n hin => h.index n (List.mem_cons_of_mem _ hin)
  have hchars : Path.chars (.field name :: rest) = name.toList ++ Path.tailText rest := rfl
  have hspells : Spells (Path.chars (.field name :: rest)) (.field name :: rest) false := by
    refine ⟨name.toList, name.toList, Path.tailText rest, rest, hname, padded_self _,
      ⟨Path.tailText rest, [], hmembers, .none, (List.append_nil _).symm⟩, hchars, ?_⟩
    rw [String.ofList_toList]
  have hblank : ∀ c ∈ Path.chars (.field name :: rest), isBlank c = false := by
    intro c hc
    rcases List.mem_append.mp (hchars ▸ hc) with hin | hin
    · exact isBlank_eq_false_of_isNameChar (hname.chars c hin)
    · exact isBlank_eq_false_of_mem_tailText hfield c hin
  refine ⟨⟨Path.text (.field name :: rest), name, rest, false⟩, ?_, rfl, rfl, rfl⟩
  refine (read_spells _ _).mpr ⟨?_, ?_⟩
  · rw [Path.text, String.toList_ofList]
    exact hspells
  · rw [trimmed, Path.text, String.toList_ofList, trim_of_not_blank hblank]

/-- A name of another script, the largest index and a name that starts with a sign. -/
theorem read_pathText_limit :
    Path.Spellable [.field "π", .index 18446744073709551615, .field "$1"] ∧
      ∃ e, read "π[18446744073709551615].$1" = .ok e ∧
        e.path = [.field "π", .index 18446744073709551615, .field "$1"] := by
  have hspellable : Path.Spellable [.field "π", .index 18446744073709551615, .field "$1"] := by
    refine ⟨⟨_, _, rfl⟩, fun name hname => ?_, fun n hn => ?_⟩
    · obtain rfl | rfl : name = "π" ∨ name = "$1" := by simpa using hname
      · exact isName_of_all (by decide +kernel) (by decide +kernel)
      · exact isName_of_all (by decide +kernel) (by decide +kernel)
    · obtain rfl : n = 18446744073709551615 := by simpa using hn
      decide
  have htext : Path.text [.field "π", .index 18446744073709551615, .field "$1"] =
      "π[18446744073709551615].$1" := by decide +kernel
  obtain ⟨e, he, -, hpath, -⟩ := read_pathText hspellable
  exact ⟨hspellable, e, htext ▸ he, hpath⟩

end Expression

end ReactiveView
