import ReactiveView.Proofs.Cascade.Kept
import ReactiveView.Proofs.Graph.Regrowth
import ReactiveView.Proofs.Page.Coupled
import ReactiveView.Proofs.Page.Sparing
/-!
# What a set changes

A set is refused, or it is a write. A refusal is known from the page alone, and leaves all of it as it
was. Otherwise the data has been written and the replaced value recorded before the first observer is
called, and nothing of this is taken back when one fails. From then on the page is in the hands of its
observers and computed properties. If they spare it, the data, the recorded values and the observers
stay as the write left them, and the links can only have new nodes behind those that are there; if they
leave it, the links are the same, too.

Results:
* `set_cases`: a set is refused without a change, whatever the observers are, or it is a write.
* `cascade_ends`, `write_ends`: what observers and computed properties do is all that a cascade does.
* `set_spares`: a set changes nothing, or what it names.
* `links_asked`: a set whose observers ask for nodes below another node.
-/
namespace ReactiveView

namespace Graph

variable {ω : Type} {g g' : Graph ω}

/-- The replaced value is recorded at a node, if there is one; all other recorded values are the same,
and so are the observers. -/
structure Recorded (g : Graph ω) (target : Option Nat) (old : Value) (g' : Graph ω) : Prop where
  observers : ∀ i, g'.observers i = g.observers i
  previous : ∀ i, g'.previous? i = if target = some i then some old else g.previous? i

theorem previous?_setPrevious {i : Nat} {v : Value} (h : g.setPrevious i v = .ok g') (j : Nat) :
    g'.previous? j = if i = j then some v else g.previous? j := by
  unfold setPrevious contains at h
  split at h
  · next hi =>
    cases h
    rw [previous?, previous?, property?_mapProperty]
    split
    · next hij =>
      subst hij
      obtain ⟨property, hproperty⟩ := Option.isSome_iff_exists.mp hi
      rw [hproperty]
      rfl
    · rfl
  · cases h

theorem recorded_none (g : Graph ω) (old : Value) : Recorded g none old g :=
  ⟨fun _ => rfl, fun _ => rfl⟩

theorem recorded_setPrevious {i : Nat} {old : Value} (h : g.setPrevious i old = .ok g') :
    Recorded g (some i) old g' where
  observers := observers_setPrevious h
  previous j := by
    rw [previous?_setPrevious h]
    simp only [Option.some.injEq]

/-- In any graph, what a path other than the empty one resolves to is there. -/
theorem contains_of_resolve_cons {s : Segment} {rest : Path} {i : Nat}
    (h : g.resolve (s :: rest) = some i) : g.contains i := by
  obtain ⟨start, hstart, hrest⟩ := Option.bind_eq_some_iff.mp h
  rw [foldlM_keys] at hrest
  refine contains_of_walk ?_ hrest
  rcases Option.or_eq_some_iff.mp hstart with hchild | ⟨-, hfind⟩
  · exact contains_of_childByKey hchild
  · have hkey := hasKey_iff.mp (List.find?_some hfind)
    rw [contains_eq]
    obtain ⟨place, hplace, -⟩ := Option.map_eq_some_iff.mp hkey
    rw [hplace]
    rfl

end Graph

namespace Page

open ReactiveView.Graph Relation Run

variable {σ : Type} {p p' : Page σ} {source : String} {x : Value}

/-! ## Refusals -/

/-- Why a set is refused before its cascade starts: the text is no expression or ends in a call, the
name is read-only, or the data has no such place. -/
def refusal (p : Page σ) (source : String) (x : Value) : Option Error :=
  match Expression.read source with
  | .error e => some e
  | .ok e =>
    match e.target with
    | .error err => some err
    | .ok path =>
      if p.isReadOnly path then
        some (.notAssignable path.text "computed properties and methods are read-only")
      else
        match p.data.set path x with
        | .error err => some err
        | .ok _ => none

/-- A set is refused, and is a failure without a change; or it is a write. Which of the two does not
depend on what runs the programs, so no program is run before it is known. -/
theorem set_cases (p : Page σ) (source : String) (x : Value) :
    (∃ e, p.refusal source x = some e ∧ ∀ (run : Program σ → Run (Page σ) Value) (depth : Nat),
      set run depth source x p = .failed e p) ∨
    (p.refusal source x = none ∧ ∃ e old data,
      Expression.read source = .ok e ∧ p.data.set e.path x = .ok (old, data) ∧
      ∀ (run : Program σ → Run (Page σ) Value) (depth : Nat), set run depth source x p
        = (do let _ ← write run depth e.path x; pure () : Run (Page σ) Unit) p) := by
  unfold refusal set
  cases hread : Expression.read source with
  | error err => exact .inl ⟨err, rfl, fun _ _ => rfl⟩
  | ok e =>
    have hassign : ∀ (run : Program σ → Run (Page σ) Value) (depth : Nat),
        (Run.ofExcept (.ok e) >>= fun e => e.assign (scope run depth .page) x : Run (Page σ) Unit) p
          = (Run.ofExcept e.target >>= fun path => assign run depth path x : Run (Page σ) Unit) p := by
      intro run depth
      show e.assign (scope run depth .page) x p = _
      unfold Expression.assign
      cases e.target <;> rfl
    simp only [hassign]
    cases htarget : e.target with
    | error err => exact .inl ⟨err, rfl, fun _ _ => rfl⟩
    | ok path =>
      obtain rfl := Expression.eq_path_of_target htarget
      have hstart : ∀ (run : Program σ → Run (Page σ) Value) (depth : Nat),
          (Run.ofExcept (.ok e.path) >>= fun path => assign run depth path x : Run (Page σ) Unit) p
            = assign run depth e.path x p := fun _ _ => rfl
      simp only [hstart]
      cases hreadOnly : p.isReadOnly e.path with
      | true => exact .inl ⟨_, rfl, fun _ _ => assign_of_refused hreadOnly⟩
      | false =>
        simp only [assign_of_free hreadOnly]
        cases hset : p.data.set e.path x with
        | error err => exact .inl ⟨err, rfl, fun _ _ => bind_of_failed (write_of_error hset)⟩
        | ok r => exact .inr ⟨rfl, e, r.1, r.2, rfl, hset, fun _ _ => rfl⟩

/-! ## Writes -/

section

variable {R : Page σ → Page σ → Prop} {E : Prop} {depth : Nat}

/-- What observers and computed properties keep is kept by the parts of a cascade. -/
theorem Serves.keeps (hR : Mild R) (hs : Serves R E depth p) (b : Page σ) :
    (cascade (interpret depth)).Keeps (fun q => R b q ∧ Kin p q)
      (fun o => ∃ i, o ∈ p.graph.observers i) E where
  observers q hq i property hproperty o ho := by
    have hproperty : q.graph.property i = .ok property := hproperty
    refine ⟨i, ?_⟩
    rw [← hq.2.observers i, Graph.observers, property_eq_ok.mp hproperty]
    exact ho
  value q hq source := by
    exact ends_valueOf (fun name program hname => hs.ends_computed hR hq.1 hq.2 hname) hq source
  call q hq o ho current previous := by
    obtain ⟨i, ho⟩ := ho
    exact hs.ends_observer hR hq.1 hq.2 ho current previous

/-- A cascade does no more to a page than its observers and computed properties, and if these leave
the links alone, they alone can keep it from coming to an end. -/
theorem cascade_ends (hR : Mild R) (hs : Serves R E depth p) {b : Page σ} (hb : Kin p b) {id : Nat}
    (hid : b.graph.contains id) :
    ((cascade (interpret depth)).notifyAll depth id b).Ends (R b) (R b) True ∧
    ((∀ q, R b q → SameShape b.graph q.graph) →
      ((cascade (interpret depth)).notifyAll depth id b).Ends (R b) (R b)
        (E ∨ depth ≤ b.graph.forest.size)) := by
  have hparts := hs.keeps hR b
  have hstart : R b b ∧ Kin p b := ⟨hR.refl b, hb⟩
  have hends := ((hparts.imp fun _ => trivial).notifyAll hstart depth id).imp
    (fun _ hq => hq.1) (fun _ hq => hq.1) fun h => h
  refine ⟨hends, fun hlinks => ?_⟩
  rcases Nat.lt_or_ge b.graph.forest.size depth with hd | hd
  · have hsound := hparts.notifyAll_of_sound hb.sound (fun q hq => hlinks q hq.1) hstart hid hd
    exact hsound.imp (fun _ hq => hq.1) (fun _ hq => hq.1) .inl
  · exact hends.imp (fun _ h => h) (fun _ h => h) fun _ => .inr hd

/-- A write puts the value in its place, records the replaced one, and hands the page over. -/
theorem write_ends (hR : Mild R) (hs : Serves R E depth p) (hp : p.graph.Sound) {s : Segment}
    {rest : Path} {old data : Value} (hset : p.data.set (s :: rest) x = .ok (old, data)) :
    ∃ b : Page σ, b.data = data ∧
      Recorded p.graph (p.graph.resolve (s :: rest)) old b.graph ∧ SameShape p.graph b.graph ∧
      (write (interpret depth) depth (s :: rest) x p).Ends (R b) (R b) True ∧
      ((∀ q, R b q → SameShape b.graph q.graph) →
        (write (interpret depth) depth (s :: rest) x p).Ends (R b) (R b)
          (E ∨ depth ≤ p.graph.forest.size)) := by
  cases hid : p.graph.resolve (s :: rest) with
  | none =>
    refine ⟨{ p with data }, rfl, recorded_none p.graph old, .refl _, ?_⟩
    rw [write_of_unresolved hset hid]
    exact ⟨hR.refl _, fun _ => hR.refl _⟩
  | some id =>
    have hcontains := contains_of_resolve_cons hid
    obtain ⟨graph, hgraph⟩ : ∃ graph, p.graph.setPrevious id old = .ok graph :=
      ⟨_, if_pos hcontains⟩
    have hshape := sameShape_setPrevious hgraph
    have hkin : Kin p { p with data, graph } :=
      ⟨hshape.sound hp, observers_setPrevious hgraph, rfl, rfl, rfl, rfl⟩
    obtain ⟨hends, hdeep⟩ := cascade_ends hR hs hkin ((hshape.contains id).trans hcontains)
    refine ⟨{ p with data, graph }, rfl, recorded_setPrevious hgraph, hshape, ?_⟩
    rw [write_of_resolved hset hid hgraph, ← hshape.size]
    exact ⟨ends_bind_pure hends (some id), fun hlinks => ends_bind_pure (hdeep hlinks) (some id)⟩

end

/-- A page after a write: its data is what the write made of it, the replaced value is recorded, and
its links are to those before as they may be. -/
structure Wrote (links : Graph (Observer σ) → Graph (Observer σ) → Prop) (target : Option Nat)
    (old data : Value) (p p' : Page σ) : Prop where
  data : p'.data = data
  recorded : Recorded p.graph target old p'.graph
  links : links p.graph p'.graph

theorem Spares.recorded {b : Page σ} {target : Option Nat} {old : Value}
    (h : Spares b p') (hb : Recorded p.graph target old b.graph) :
    Recorded p.graph target old p'.graph where
  observers i := (h.observers i).trans (hb.observers i)
  previous i := (h.previous i).trans (hb.previous i)

/-- A set is refused, and then nothing has changed and no program has run; or the value is in its
place whatever comes later, the value that it replaced is recorded at the node of the path and nowhere
else, and no observer has come or gone. This is so for a page whose observers and computed
properties write nothing and register no observers. They may still ask for nodes, which then go behind
those that are there. If they do not, the links are the same, and only they can keep the set from
coming to an end. -/
theorem set_spares {policy : Policy σ} {options : Options σ} (h : Reached policy options p)
    {E : Prop} {depth : Nat} (hs : Serves Spares E depth p) (source : String) (x : Value) :
    (∀ e, p.refusal source x = some e →
      ∀ run depth, set run depth source x p = .failed e p) ∧
    (p.refusal source x = none → ∃ e old data,
      Expression.read source = .ok e ∧ p.data.set e.path x = .ok (old, data) ∧
      (set (interpret depth) depth source x p).Ends
        (Wrote Extends (p.graph.resolve e.path) old data p)
        (Wrote Extends (p.graph.resolve e.path) old data p) True ∧
      (Serves Leaves E depth p → (set (interpret depth) depth source x p).Ends
        (Wrote SameShape (p.graph.resolve e.path) old data p)
        (Wrote SameShape (p.graph.resolve e.path) old data p)
        (E ∨ depth ≤ p.graph.forest.size))) := by
  have hp := h.sound
  rcases set_cases p source x with
    ⟨err, herr, hfailed⟩ | ⟨hnone, e, old, data, hread, hset, hwrite⟩
  · refine ⟨fun e he => ?_, fun hnone => ?_⟩
    · obtain rfl : err = e := Option.some.inj (herr.symm.trans he)
      exact hfailed
    · rw [herr] at hnone
      cases hnone
  refine ⟨fun e he => ?_, fun _ => ⟨e, old, data, hread, hset, ?_, fun hleaves => ?_⟩⟩
  · rw [hnone] at he
    cases he
  · obtain ⟨b, rfl, hrecorded, hshape, hends, -⟩ := write_ends mild_spares hs hp hset
    have hwrote : ∀ p', Spares b p' → Wrote Extends (p.graph.resolve e.path) old b.data p p' :=
      fun p' hp' => ⟨hp'.data, hp'.recorded hrecorded, hshape.extends.trans hp'.links⟩
    rw [hwrite]
    exact ends_bind_pure (hends.imp hwrote hwrote fun h => h) ()
  · obtain ⟨b, rfl, hrecorded, hshape, -, hends⟩ := write_ends mild_leaves hleaves hp hset
    have hgraph : ∀ q, Leaves b q → SameShape b.graph q.graph := fun q hq => hq.graph ▸ .refl _
    have hwrote : ∀ p', Leaves b p' → Wrote SameShape (p.graph.resolve e.path) old b.data p p' :=
      fun p' hp' => ⟨hp'.data, (mild_leaves.spares _ _ hp').recorded hrecorded,
        hshape.trans (hgraph p' hp')⟩
    rw [hwrite]
    exact ends_bind_pure ((hends hgraph).imp hwrote hwrote fun h => h) ()

/-- A page with a watcher that fails. -/
def failingOptions : Options Unit :=
  ⟨.record [("a", .null)], [], [], [("a", fun _ _ => .fail (.callback "no"))]⟩

def failingPage : Page Unit := assemble failingOptions [] [] .blank ()

theorem serves_failingPage : Serves Leaves False 3 failingPage := by
  have hgentle : Gentle False failingPage := by
    refine .assemble (List.forall_mem_nil _) (List.forall_mem_nil _)
      (fun w hw current previous => ?_) [] [] .blank ()
    obtain rfl := List.mem_singleton.mp hw
    exact .fail _
  refine (hgentle.leaves 3).mono (fun _ _ h => h) fun h => ?_
  exact not_hasPrograms_assemble rfl rfl [] [] .blank () (h.resolve_left (by decide))

/-- A set that leads through a missing value changes nothing. One that is watched is done when the
watcher fails. -/
theorem set_spares_failing :
    (Reached (fun _ _ => true) failingOptions failingPage ∧ Serves Spares False 3 failingPage ∧
      Serves Leaves False 3 failingPage) ∧
    (∃ e, failingPage.refusal "a.b" .null = some e ∧
      set (interpret 3) 3 "a.b" .null failingPage = .failed e failingPage) ∧
    failingPage.refusal "a" (.bool true) = none ∧
    ∃ e p', set (interpret 3) 3 "a" (.bool true) failingPage = .failed e p' ∧
      Wrote SameShape (some 1) .null (.record [("a", .bool true)]) failingPage p' := by
  have hreached : Reached (fun _ _ => true) failingOptions failingPage := .start [] [] .blank ()
  have hspares := serves_failingPage.mono mild_leaves.spares fun h => h
  obtain ⟨err, herr⟩ : ∃ err, failingPage.refusal "a.b" .null = some err :=
    Option.isSome_iff_exists.mp (by decide +kernel)
  have hnone : failingPage.refusal "a" (.bool true) = none := by decide +kernel
  refine ⟨⟨hreached, hspares, serves_failingPage⟩,
    ⟨err, herr, (set_spares hreached hspares "a.b" .null).1 err herr _ _⟩, hnone, ?_⟩
  obtain ⟨e, old, data, hread, hset, -, hends⟩ :=
    (set_spares hreached hspares "a" (.bool true)).2 hnone
  have he : Expression.read "a" = .ok ⟨"a", "a", [], false⟩ := eq_ok_of_toOption (by decide +kernel)
  rw [he] at hread
  cases hread
  cases hset
  have hid : failingPage.graph.resolve [.field "a"] = some 1 := by decide +kernel
  have hends := hends serves_failingPage
  rw [show Expression.path ⟨"a", "a", [], false⟩ = [.field "a"] from rfl, hid] at hends
  cases hrun : set (interpret 3) 3 "a" (.bool true) failingPage with
  | done a p' =>
    have hdone : (set (interpret 3) 3 "a" (.bool true) failingPage).isDone = false := by
      decide +kernel
    rw [hrun] at hdone
    cases hdone
  | failed e p' =>
    rw [hrun] at hends
    exact ⟨e, p', rfl, hends⟩
  | exhausted =>
    rw [hrun] at hends
    rcases hends with hends | hends
    · exact hends.elim
    · exact absurd hends (by decide +kernel)

/-- A page with a watcher that asks for nodes of what it watches. -/
def askingOptions : Options Unit :=
  ⟨.record [("m", .record [("a", .null)])], [], [],
    [("m", fun _ _ => .tell (.grow "m") fun _ => .done .null)]⟩

def askingPage : Page Unit := assemble askingOptions [] [] .blank ()

theorem serves_askingPage : Serves Spares False 3 askingPage := by
  have hgentle : Gentle True askingPage := by
    refine .assemble (List.forall_mem_nil _) (List.forall_mem_nil _)
      (fun w hw current previous => ?_) [] [] .blank ()
    obtain rfl := List.mem_singleton.mp hw
    refine .grow trivial fun r => ?_
    cases r with
    | ok n => exact .done .null
    | error e => exact .fail e
  refine (hgentle.spares 3).mono (fun _ _ h => h) fun h => ?_
  exact not_hasPrograms_assemble rfl rfl [] [] .blank () (h.resolve_left (by decide))

/-- A watcher that neither writes nor registers observers can still see to it that a set gives a
child to a node that it does not name. -/
theorem links_asked : ¬∀ (options : Options Unit) (p p' : Page Unit) (depth : Nat) (source : String)
    (e : Expression) (x : Value), Reached (fun _ _ => true) options p →
    Serves Spares False depth p → Expression.read source = .ok e →
    set (interpret depth) depth source x p = .done () p' →
    ∀ i, p.graph.resolve e.path ≠ some i →
      p'.graph.forest.children i = p.graph.forest.children i := by
  intro h
  have hread : Expression.read "m" = .ok ⟨"m", "m", [], false⟩ :=
    eq_ok_of_toOption (by decide +kernel)
  have hrun := Outcome.eq_done (o := set (interpret 3) 3 "m" (.record [("a", .list [.null])])
    askingPage) (by decide +kernel) askingPage
  have hchildren := h askingOptions askingPage _ 3 "m" _ _ (.start [] [] .blank ())
    serves_askingPage hread hrun 2 (by decide +kernel)
  revert hchildren
  decide +kernel

end Page

end ReactiveView
