import ReactiveView.Proofs.Page.Coherence
import ReactiveView.Proofs.Template.Repeat
import ReactiveView.Proofs.Value.Members
/-!
# The accessors of a collection

A repeat takes the text of its collection and writes a key or an index in brackets behind it, once
for each member. Keys can be any texts, but what is read between the quotes is the key again; and
whatever the collection is spelled like, with blanks at its end or quoted keys of its own, the
brackets are read as one member more. So each accessor names the member that it was made for.

Results:
* `read_brackets`: what is read of the text of a collection with a member in brackets behind it.
* `evaluate_of_at?`: where the data has a value at the path of an expression, that is what the
  expression evaluates to.
* `evaluate_accessors`: the accessors of a collection evaluate to its members, in order.
-/
namespace ReactiveView

namespace Template

open Expression

/-- The text of a collection with a member in brackets behind it leads to the member. -/
theorem read_brackets {collection : String} {e : Expression}
    (hread : Expression.read collection = .ok e) (hcall : e.isCall = false) {s : Segment}
    (hs : Accessible s) : ∃ a, Expression.read (String.ofList (accessor collection.toList s)) = .ok a ∧
      a.isCall = false ∧ a.path = e.path ++ [s] := by
  obtain ⟨hspells, -⟩ := (read_spells collection e).mp hread
  rw [hcall] at hspells
  refine ⟨⟨Text.trimmed (String.ofList (accessor collection.toList s)), e.head, e.tail ++ [s], false⟩,
    (read_spells _ _).mpr ⟨?_, rfl⟩, rfl, rfl⟩
  rw [String.toList_ofList]
  exact spells_accessor hspells hs

end Template

namespace Page

open Template Run

variable {σ : Type}

/-- An expression that is no call evaluates to the value that the data has at its path, if there is
one. No program runs. -/
theorem evaluate_of_at? {p : Page σ} {source : String} {e : Expression} {v : Value}
    (hread : Expression.read source = .ok e) (hcall : e.isCall = false)
    (hv : p.data.at? e.path = some v) (run : Program σ → Run (Page σ) Value) :
    evaluate run source .page p = .done v p := by
  rw [Expression.at?_path hread] at hv
  obtain ⟨w, hw, hat⟩ := Option.bind_eq_some_iff.mp hv
  have hvalue := evaluate_of_field? hcall hw run
  rw [hat] at hvalue
  unfold evaluate
  rw [hread]
  exact hvalue

/-- The text of a collection with a quoted key or with an index in brackets behind it is an
expression that leads from the collection to the field or to the element. So on a page whose data has
a list or a record there, the accessors of the collection are as many as its members, and the one at
each place evaluates to the member at that place; and so it does in the data by itself. -/
theorem evaluate_accessors {collection : String} {e : Expression}
    (hread : Expression.read collection = .ok e) (hcall : e.isCall = false) :
    (∀ key : String, ∃ a, Expression.read (String.ofList
        (collection.toList ++ '[' :: quoteKey key.toList ++ [']'])) = .ok a ∧
      a.isCall = false ∧ a.path = e.path ++ [.field key]) ∧
    (∀ n < Text.indexLimit, ∃ a, Expression.read (String.ofList
        (collection.toList ++ '[' :: Text.decimal n ++ [']'])) = .ok a ∧
      a.isCall = false ∧ a.path = e.path ++ [.index n]) ∧
    ∀ (data v : Value), data.at? e.path = some v → v.isDistinct →
      (∀ m ∈ v.members, Accessible m.1) →
      (accessors collection v).length = v.members.length ∧
      ∀ (i : Nat) (m : Segment × Value), v.members[i]? = some m →
        ∃ text a, (accessors collection v)[i]? = some text ∧
          Expression.read (String.ofList text) = .ok a ∧ a.path = e.path ++ [m.1] ∧
          data.at? a.path = some m.2 ∧
          a.evaluate Scope.plain.toNames data = .done m.2 data ∧
          ∀ (p : Page σ) (run : Program σ → Run (Page σ) Value), p.data = data →
            evaluate run collection .page p = .done v p ∧
            evaluate run (String.ofList text) .page p = .done m.2 p := by
  refine ⟨fun key => read_brackets (s := .field key) hread hcall trivial,
    fun n hn => read_brackets (s := .index n) hread hcall hn,
    fun data v hv hdistinct hsmall => ⟨List.length_map _, fun i m hm => ?_⟩⟩
  have hmem : m ∈ v.members := List.mem_of_getElem? hm
  obtain ⟨a, ha, hacall, hpath⟩ := read_brackets hread hcall (hsmall m hmem)
  have hat : data.at? a.path = some m.2 := by
    calc data.at? a.path = (data.at? e.path).bind fun w => w.at? [m.1] := by
          rw [hpath, Value.at?_append]
      _ = v.member? m.1 := by
          rw [hv, Option.bind_some]
          exact Option.bind_fun_some _
      _ = some m.2 := Value.member?_of_mem_members hdistinct hmem
  refine ⟨accessor collection.toList m.1, a, ?_, ha, hpath, hat, ?_, ?_⟩
  · rw [accessors, List.getElem?_map, hm]
    rfl
  · rw [Expression.evaluate_plain ha hacall, hat]
    rfl
  · rintro p run rfl
    exact ⟨evaluate_of_at? hread hcall hv run, evaluate_of_at? ha hacall hat run⟩

/-- A record whose keys hold a quote, a backslash and a bracket. -/
def spikedRecord : Value :=
  .record [("it's", .bool true), ("\\", .null), ("']", .text "x")]

def spikedData : Value := .record [("a", .record [("b c", spikedRecord)])]

/-- The accessors of the record, in a collection with blanks and a quoted key of its own. -/
theorem evaluate_accessors_spiked :
    (accessors " a [ \"b c\" ] " spikedRecord).length = 3 ∧
    ∃ text a, (accessors " a [ \"b c\" ] " spikedRecord)[2]? = some text ∧
      Expression.read (String.ofList text) = .ok a ∧
      a.path = [.field "a", .field "b c", .field "']"] ∧
      a.evaluate Scope.plain.toNames spikedData = .done (.text "x") spikedData := by
  have hread : Expression.read " a [ \"b c\" ] "
      = .ok ⟨"a [ \"b c\" ]", "a", [.field "b c"], false⟩ := eq_ok_of_toOption (by decide +kernel)
  obtain ⟨-, -, hmembers⟩ := evaluate_accessors (σ := Unit) hread rfl
  obtain ⟨hlength, haccessors⟩ := hmembers spikedData spikedRecord rfl (by decide) (by
    simp only [spikedRecord, Value.members, List.map_cons, List.map_nil, List.forall_mem_cons]
    exact ⟨trivial, trivial, trivial, fun _ h => absurd h List.not_mem_nil⟩)
  obtain ⟨text, a, htext, ha, hpath, -, hvalue, -⟩ := haccessors 2 (.field "']", .text "x") rfl
  exact ⟨hlength, text, a, htext, ha, hpath, hvalue⟩

end Page

end ReactiveView
