import ReactiveView.Proofs.Cascade.Trace
import ReactiveView.Proofs.Page.Coherence
import ReactiveView.Proofs.Template.Repeat
/-!
# Reading by expression and by node

A value can be read in two ways. An expression is looked up by its head and followed through its
members, as they are written. A node has a path of its own, as it was spelled when the node was made,
and the two may spell one member differently. But they have the same keys, and keys say which member
is meant, as long as indices are those of the machine. And a name is looked up where its node is:
among the fields of the data first, then among the computed properties.

A notification reads once, before it calls the first observer. So a watcher hears what reading gave
then. When an earlier watcher of the node has written to it, this is no longer what reading gives.

Results:
* `at?_of_keys_eq`: paths with the same keys lead to the same member.
* `valueOf_of_locate`: an expression has the value of the node that it names, if there is one.
* `notify_of_locate`: what all observers of a node are called with.
* `reading_of_reached`: both for all pages on the way of runs that keep the names at the top.
* `stale_handed`: a watcher that hears of a value that is no longer there.
-/
namespace ReactiveView

namespace Value

open Template

/-- A segment stands for the same element as its key. -/
theorem element?_key {s : Segment} (hs : Accessible s) : s.element? = Text.indexOf? s.key := by
  cases s with
  | field name => rfl
  | index n =>
    rw [Segment.key, Text.indexOf?, String.toList_ofList]
    exact (Text.numeral_decimal hs).symm

theorem member?_of_key_eq {s t : Segment} (hs : Accessible s) (ht : Accessible t)
    (hkey : s.key = t.key) (v : Value) : v.member? s = v.member? t := by
  cases v with
  | record entries => simp only [member?, hkey]
  | list items => simp only [member?, element?_key hs, element?_key ht, hkey]
  | null => rfl
  | bool b => rfl
  | number n => rfl
  | text c => rfl

/-- Paths with the same keys lead to the same member of any value. -/
theorem at?_of_keys_eq {q r : Path} (hq : ∀ s ∈ q, Accessible s) (hr : ∀ s ∈ r, Accessible s)
    (hkeys : q.keys = r.keys) (v : Value) : v.at? q = v.at? r := by
  induction q generalizing r v with
  | nil => rw [List.map_eq_nil_iff.mp hkeys.symm]
  | cons s q ih =>
    cases r with
    | nil => cases hkeys
    | cons t r =>
      obtain ⟨hkey, hrest⟩ := List.cons.inj hkeys
      obtain ⟨hs, hq⟩ := List.forall_mem_cons.mp hq
      obtain ⟨ht, hr⟩ := List.forall_mem_cons.mp hr
      rw [at?, at?, member?_of_key_eq hs ht hkey]
      exact congrArg _ (funext fun w => ih hq hr hrest w)

end Value

namespace Expression

open Template

theorem accessible_of_member {cs : List Char} {s : Segment} (h : Member cs s) : Accessible s := by
  cases h with
  | name => trivial
  | index _ hd => exact hd.small
  | quoted => trivial

theorem accessible_of_members {cs : List Char} {segments : List Segment}
    (h : Members cs segments) : ∀ s ∈ segments, Accessible s := by
  induction h with
  | nil => exact fun s hs => absurd hs List.not_mem_nil
  | cons hm _ ih => exact List.forall_mem_cons.mpr ⟨accessible_of_member hm, ih⟩

/-- Expressions have no indices of more than 64 bits. -/
theorem accessible_of_read {source : String} {e : Expression} (h : read source = .ok e) :
    ∀ s ∈ e.path, Accessible s := by
  obtain ⟨⟨name, first, rest, segments, -, -, ⟨ms, suffix, hms, -, -⟩, -, hpath⟩, -⟩ :=
    (read_spells source e).mp h
  rw [hpath]
  exact List.forall_mem_cons.mpr ⟨trivial, accessible_of_members hms⟩

end Expression

/-- A text other than the name of the root names what its path resolves to. -/
theorem Graph.resolve_of_locate {ω : Type} {g : Graph ω} {source : String} {id : Nat}
    (hroot : Text.trimmed source ≠ Expression.rootName) (h : g.locate source = some id) :
    ∃ e, Expression.read source = .ok e ∧ e.isCall = false ∧ g.resolve e.path = some id := by
  unfold locate at h
  dsimp only at h
  rw [if_neg hroot] at h
  split at h
  · cases h
  · next e he =>
    split at h
    · cases h
    · next hcall => exact ⟨e, Expression.read_of_trimmed he, Bool.eq_false_iff.mpr hcall, h⟩

namespace Page

open ReactiveView.Graph Relation Run

variable {σ : Type} {p p' : Page σ}

/-- The value of a computed property by its node and by its name: both run its program. -/
theorem evaluate_of_computed (hp : Named p) {source : String} {e : Expression} {id : Nat}
    {s : Segment}
    (hread : Expression.read source = .ok e) (hcall : e.isCall = false) (hpath : e.path = [s])
    (hmem : id ∈ p.graph.computed) (hplace : p.graph.place? id = some (s.key, .computed s.key))
    (hnone : p.graph.childByKey root s.key = none) (run : Program σ → Run (Page σ) Value) :
    e.evaluate (names run .page) p = valueOf run (.computed s.key) p := by
  obtain ⟨rfl, htail⟩ : Segment.field e.head = s ∧ e.tail = [] := by
    have hcons := List.cons.inj hpath
    exact ⟨hcons.1, hcons.2⟩
  obtain ⟨program, hprogram⟩ := Option.isSome_iff_exists.mp (hp.keyed.property id _ _ hmem hplace)
  have hprogram : p.computed e.head = some program := hprogram
  -- a field of this name would have a node of its own below the root
  have hfield : p.data.field? e.head = none := by
    refine Option.not_isSome_iff_eq_none.mp fun hfield => ?_
    have hchild := hp.keyed.child e.head (Expression.head_ne_decimal hread) hfield
      (Option.isSome_iff_exists.mpr ⟨program, hprogram⟩)
    rw [show e.head = (Segment.field e.head).key from rfl, hnone] at hchild
    cases hchild
  have hlook : Run.look (fun p : Page σ => p.data.field? e.head) p = .done none p := by
    rw [Run.look, hfield]
  have hask : Run.look (fun p : Page σ => p.computed e.head) p = .done (some program) p := by
    rw [Run.look, hprogram]
  have hlookup : (names run .page).lookup e.head p
      = (run program >>= fun v => pure (some v)) p := by
    exact (bind_of_done hlook).trans (bind_of_done hask)
  have hvalue : valueOf run (.computed e.head) p = run program p := bind_of_done hask
  rw [show (Segment.field e.head).key = e.head from rfl, hvalue]
  unfold Expression.evaluate
  rw [if_neg (by simp [hcall]), htail]
  rw [bind_eq, andThen, hlookup, bind_eq, andThen]
  cases run program p <;> rfl

/-- An expression has the value of the node that it names, as a run: it may be that of a computed
property, which runs a program. -/
theorem valueOf_of_locate (hp : Named p) {source : String} {id : Nat}
    {property : Property (Observer σ)}
    (hroot : Text.trimmed source ≠ Expression.rootName) (hid : p.graph.locate source = some id)
    (hproperty : p.graph.property id = .ok property)
    (hsmall : ∀ q, p.graph.location? id = some q → ∀ s ∈ q, Template.Accessible s)
    (run : Program σ → Run (Page σ) Value) :
    valueOf run property.source p = evaluate run source .page p := by
  obtain ⟨e, hread, hcall, hresolve⟩ := resolve_of_locate hroot hid
  have hplace : p.graph.place? id = some (property.key, property.source) := by
    rw [place?, property_eq_ok.mp hproperty]
    rfl
  have hevaluate : evaluate run source .page p = e.evaluate (names run .page) p := by
    unfold evaluate
    rw [hread]
    rfl
  rw [hevaluate]
  have hgrown := hp.keyed.grown
  rcases resolve_eq_some hgrown hresolve with hwalk | ⟨s, hs, hmem, hcomputed, hnone⟩
  · obtain ⟨q, hq, hkeys⟩ := location?_of_walk hgrown (location?_root hgrown) hwalk
    have hat : p.data.at? q = p.data.at? e.path :=
      Value.at?_of_keys_eq (hsmall q hq) (Expression.accessible_of_read hread) hkeys p.data
    rw [valueOf_location run hplace hq, evaluate_of_walk hp hread hcall hwalk, valueAt, valueAt, hat]
  · have hsource : property.source = .computed s.key :=
      (Prod.mk.inj (Option.some.inj (hplace.symm.trans hcomputed))).2
    rw [hsource, evaluate_of_computed hp hread hcall hs hmem hcomputed hnone]

/-- The observers of a node that an expression names are called in a row with the value that the
expression has before the first of them is called. -/
theorem notify_of_locate (hp : Named p) {source : String} {id : Nat}
    {property : Property (Observer σ)}
    (hroot : Text.trimmed source ≠ Expression.rootName) (hid : p.graph.locate source = some id)
    (hproperty : p.graph.property id = .ok property)
    (hsmall : ∀ q, p.graph.location? id = some q → ∀ s ∈ q, Template.Accessible s)
    (run : Program σ → Run (Page σ) Value) : (cascade run).notify id p =
      (if property.observers.isEmpty then pure () else do
        let current ← evaluate run source .page
        property.observers.forM fun o =>
          callObserver run o current (property.previous.getD current) : Run (Page σ) Unit) p := by
  rw [Cascade.notify_of_property hproperty rfl]
  split
  · rfl
  · refine bind_congr_at (valueOf_of_locate hp hroot hid hproperty hsmall run) ?_
    intro current p₁ _
    exact congrFun List.forM_map p₁

/-- Reading by expression and by node agree. On every page that programs lead to, and at every point
on the way of their runs, as long as none replaces the data as a whole: an expression that names a
node other than by the name of the root has the value of this node, computed properties included;
and a notification of the node reads this value once, and calls all observers of the node with it in
a row. The indices in the path of the node are those of the machine, below `Text.indexLimit`. -/
theorem reading_of_reached {options : Options σ} (hreached : Reached .below options p)
    (hsteps : ReflTransGen (Change .below) p p') {source : String} {id : Nat}
    (hroot : Text.trimmed source ≠ Expression.rootName) (hid : p'.graph.locate source = some id)
    (hsmall : ∀ q, p'.graph.location? id = some q → ∀ s ∈ q, Template.Accessible s) (depth : Nat) :
    ∃ property, p'.graph.property id = .ok property ∧
      valueOf (interpret depth) property.source p' = evaluate (interpret depth) source .page p' ∧
      (cascade (interpret depth)).notify id p' =
        (if property.observers.isEmpty then pure () else do
          let current ← evaluate (interpret depth) source .page
          property.observers.forM fun o => callObserver (interpret depth) o current
            (property.previous.getD current) : Run (Page σ) Unit) p' := by
  have hp : Named p' :=
    keeps_of_steps (fun _ _ hchange hp => hp.change hchange) (Named.of_reached hreached) hsteps
  obtain ⟨property, hproperty⟩ :=
    Option.isSome_iff_exists.mp (contains_of_locate hp.keyed.grown hid)
  have hproperty : p'.graph.property id = .ok property := property_eq_ok.mpr hproperty
  exact ⟨property, hproperty, valueOf_of_locate hp hroot hid hproperty hsmall _,
    notify_of_locate hp hroot hid hproperty hsmall _⟩

/-! ## A value that is no longer there -/

/-- The watcher that takes back what it hears of. -/
def undoing (current _ : Value) : Program (List (String × String)) :=
  match current with
  | .bool true => .tell (.set "a" (.bool false)) fun _ => .done .null
  | _ => .done .null

/-- The watcher that notes what it is handed, and what reading gives, as texts. -/
def comparing (current _ : Value) : Program (List (String × String)) :=
  .tell (.evaluate "a" .page) fun read =>
    .update (fun noted => noted ++ [(current.render, read.render)]) (.done .null)

/-- A field with a watcher that takes back what it hears of, and one behind it that reads. -/
def undoneOptions : Options (List (String × String)) :=
  ⟨.record [("a", .null)], [], [("b", .done (.bool true))], [("a", undoing), ("a", comparing)]⟩

def undonePage : Page (List (String × String)) := assemble undoneOptions [] [] .blank []

def undonePage' : Page (List (String × String)) :=
  (set (interpret 4) 4 "a" (.bool true) undonePage).stateD undonePage

theorem set_undonePage : set (interpret 4) 4 "a" (.bool true) undonePage = .done () undonePage' :=
  Outcome.eq_done (by decide +kernel) undonePage

/-- The watcher that reads is handed what was written first, when reading already gives what the
other watcher has written. -/
theorem stale_handed : Reached .below undoneOptions undonePage ∧
    undonePage.graph.locate "a" = some 1 ∧
    set (interpret 4) 4 "a" (.bool true) undonePage = .done () undonePage' ∧
    ¬∀ noted ∈ undonePage'.host, noted.1 = noted.2 := by
  have hhost : undonePage'.host = [("false", "false"), ("true", "false")] := by decide +kernel
  refine ⟨.start [] [] .blank [], by decide +kernel, set_undonePage, fun h => ?_⟩
  have hstale : ("true", "false") ∈ undonePage'.host := by
    rw [hhost]
    exact List.mem_cons_of_mem _ List.mem_cons_self
  exact absurd (h _ hstale) (by decide)

/-- The set of the field, as a program. -/
def undoneSetting : Program (List (String × String)) :=
  .tell (.set "a" (.bool true)) fun _ => .done .null

theorem interpret_undoneSetting : interpret 5 undoneSetting undonePage = .done .null undonePage' := by
  have hattempt : (set (interpret 4) 4 "a" (.bool true)).attempt undonePage
      = .done (.ok ()) undonePage' := by rw [Run.attempt, set_undonePage]
  exact bind_of_done hattempt

theorem changes_undonePage : ReflTransGen (Change .below) undonePage undonePage' := by
  have hobeys : Obeys .below 5 undoneSetting undonePage :=
    Outcome.ne_exhausted (by decide +kernel)
  exact hobeys.changes Policy.below_enforces (.inl ⟨.null, interpret_undoneSetting⟩)

/-- After the set, the field and the computed property each have one value by their node and by their
name; and a notification of the field hands this value to both watchers. -/
theorem reading_of_reached_computed : Reached .below undoneOptions undonePage ∧
    ReflTransGen (Change .below) undonePage undonePage' ∧
    undonePage'.graph.locate "a" = some 1 ∧ undonePage'.graph.locate " b" = some 2 ∧
    valueOf (interpret 4) (.computed "b") undonePage'
      = evaluate (interpret 4) " b" .page undonePage' ∧
    ∃ field current, undonePage'.graph.property 1 = .ok field ∧ field.observers.length = 2 ∧
      current.render = "false" ∧
      evaluate (interpret 4) "a" .page undonePage' = .done current undonePage' ∧
      valueOf (interpret 4) (.data [.field "a"]) undonePage' = .done current undonePage' ∧
      (cascade (interpret 4)).notify 1 undonePage' = field.observers.forM (fun o =>
        callObserver (interpret 4) o current (field.previous.getD current)) undonePage' := by
  have hreached : Reached .below undoneOptions undonePage := .start [] [] .blank []
  have ha : undonePage'.graph.locate "a" = some 1 := by decide +kernel
  have hb : undonePage'.graph.locate " b" = some 2 := by decide +kernel
  have hplace : undonePage'.graph.location? 1 = some [.field "a"] := by decide +kernel
  have hnone : undonePage'.graph.location? 2 = none := by decide +kernel
  obtain ⟨field, hfield, hvalue, hnotify⟩ :=
    reading_of_reached hreached changes_undonePage (by decide) ha (fun q hq => by
      rw [hplace] at hq
      cases hq
      exact List.forall_mem_singleton.mpr trivial) 4
  obtain ⟨property, hproperty, hvalue', -⟩ :=
    reading_of_reached hreached changes_undonePage (by decide) hb
      (fun q hq => by rw [hnone] at hq; cases hq) 4
  have hsource : (undonePage'.graph.property? 1).map Property.source = some (.data [.field "a"]) := by
    decide +kernel
  have hsource' : (undonePage'.graph.property? 2).map Property.source = some (.computed "b") := by
    decide +kernel
  have hcount : (undonePage'.graph.property? 1).map (fun p => p.observers.length) = some 2 := by
    decide +kernel
  have hread : (undonePage'.data.field? "a").map Value.render = some "false" := by decide +kernel
  rw [property_eq_ok.mp hfield] at hcount hsource
  rw [property_eq_ok.mp hproperty] at hsource'
  rw [Option.some.inj hsource] at hvalue
  rw [Option.some.inj hsource'] at hvalue'
  obtain ⟨current, hcurrent, hrender⟩ := Option.map_eq_some_iff.mp hread
  have hevaluate : evaluate (interpret 4) "a" .page undonePage' = .done current undonePage' :=
    evaluate_name (eq_ok_of_toOption (by decide +kernel)) hcurrent (interpret 4)
  have hlength : field.observers.length = 2 := Option.some.inj hcount
  have hsome : field.observers.isEmpty = false := by
    rw [List.isEmpty_eq_false_iff_exists_mem]
    exact List.length_pos_iff_exists_mem.mp (by omega)
  refine ⟨hreached, changes_undonePage, ha, hb, hvalue', field, current, hfield,
    hlength, hrender, hevaluate, hvalue.trans hevaluate, ?_⟩
  rw [hnotify, hsome]
  exact bind_of_done hevaluate

end Page

end ReactiveView
