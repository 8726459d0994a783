import ReactiveView.Expression.Scope
import ReactiveView.Proofs.Expression.Grammar
/-!
# Expressions against data trees

An expression looks its head up by name and follows its members from there. On a data tree that is
the same as following its whole path: a name is no numeral, so it is never taken for an index.

Results:
* `member?_field_of_isName`: a name leads to what it names, in any value.
* `evaluate_plain`: an expression that is no call evaluates to the value at its path, and to null
  where the path leads nowhere.
-/
namespace ReactiveView

open Text

theorem Text.digitValue_eq_none {c : Char} (h : isDigit c = false) : digitValue 10 c = none := by
  have hnot : ¬(48 ≤ c.toNat ∧ c.toNat ≤ 57) := by
    rw [← isDigit_iff, h]
    decide
  have hdigit : ¬('0' ≤ c ∧ c ≤ '9') := hnot
  have hlower : 'a' ≤ c ∧ c ≤ 'z' → 97 ≤ c.toNat := And.left
  have hupper : 'A' ≤ c ∧ c ≤ 'Z' → 65 ≤ c.toNat := And.left
  simp only [digitValue, if_neg hdigit]
  split
  · rw [if_neg (by have := hlower ‹_›; omega)]
  · split
    · rw [if_neg (by have := hupper ‹_›; omega)]
    · rfl

namespace Expression

/-- A name is no numeral. -/
theorem indexOf?_of_isName {cs : List Char} (h : IsName cs) : indexOf? (String.ofList cs) = none := by
  obtain ⟨c, rest, rfl⟩ := List.exists_cons_of_ne_nil h.ne_nil
  have hplus : c ≠ '+' := by
    rintro rfl
    exact absurd (h.chars '+' List.mem_cons_self) (by decide)
  have hvalue : digitsValue 10 0 (c :: rest) = none := by
    rw [digitsValue, digitValue_eq_none (h.first c rest rfl)]
    rfl
  unfold indexOf? numeral
  rw [String.toList_ofList]
  split
  · next heq => exact absurd (List.cons.inj heq).1 hplus
  · rw [if_neg (by simp), hvalue]
    rfl

end Expression

namespace Value

/-- Following two paths in a row. -/
theorem at?_append (v : Value) (p q : Path) : v.at? (p ++ q) = (v.at? p).bind fun w => w.at? q := by
  induction p generalizing v with
  | nil => rfl
  | cons s p ih =>
    rw [List.cons_append, at?, at?, Option.bind_assoc]
    exact congrArg _ (funext ih)

/-- Nothing but null is found below null. -/
theorem getD_at?_null (p : Path) : (null.at? p).getD .null = .null := by
  cases p <;> rfl

/-- A name leads to the field of that name, in any value. -/
theorem member?_field_of_isName (v : Value) {cs : List Char} (h : Expression.IsName cs) :
    v.member? (.field (String.ofList cs)) = v.field? (String.ofList cs) := by
  cases v with
  | record entries => rfl
  | list items =>
    show ((Segment.field (String.ofList cs)).element?).bind _ = none
    rw [Segment.element?, Expression.indexOf?_of_isName h]
    rfl
  | _ => rfl

end Value

namespace Expression

variable {source : String} {e : Expression}

/-- The head of an expression is a name. -/
theorem isName_head (h : read source = .ok e) : IsName e.head.toList := by
  obtain ⟨⟨name, first, rest, segments, hn, -, -, -, hpath⟩, -⟩ := (read_spells source e).mp h
  have hhead : e.head = String.ofList name := by simpa [path] using congrArg List.head? hpath
  rwa [hhead, String.toList_ofList]

/-- Looking the head up and following the members is following the path. -/
theorem at?_path (h : read source = .ok e) (data : Value) :
    data.at? e.path = (data.field? e.head).bind fun v => v.at? e.tail := by
  have hname := Value.member?_field_of_isName data (isName_head h)
  rw [String.ofList_toList] at hname
  rw [path, Value.at?, hname]

/-- An expression that is no call evaluates to the value at its path; what is absent is null. -/
theorem evaluate_plain (h : read source = .ok e) (hcall : e.isCall = false) (data : Value) :
    e.evaluate Scope.plain.toNames data = .done ((data.at? e.path).getD .null) data := by
  have hlookup : Scope.plain.toNames.lookup e.head data = .done (data.field? e.head) data := rfl
  have hvalue := at?_path h data
  unfold evaluate
  rw [if_neg (by simp [hcall])]
  show Run.andThen _ _ data = _
  rw [Run.andThen, hlookup]
  cases hfield : data.field? e.head with
  | none =>
    rw [hvalue, hfield]
    rfl
  | some v =>
    rw [hvalue, hfield]
    rfl

end Expression

end ReactiveView
