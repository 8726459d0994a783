import ReactiveView.Proofs.Forest.Order
import ReactiveView.Proofs.Page.Directives
import ReactiveView.Proofs.Page.InPlace
import ReactiveView.Proofs.Surface.Coupling
import ReactiveView.Proofs.Surface.Standing
/-!
# Tours

A tour goes through nodes of a document in order and visits each of them. A visit to an element
calls the handler of its directive, if one applies, and then binds what the element interpolates.
Whoever has taken care of what is below a node has the tour pass over it, and a handler that fails
ends the tour.

So what was called can be told from the document: an element was called if a directive applies to
it, no call above it has taken care of it, and no call before it has failed.

Results:
* `Toured.append`: two tours in a row.
* `Toured.called_iff`: the elements that are called.
* `Toured.removed`, `Toured.kept`: the elements after a tour.
-/
namespace ReactiveView

namespace Page

open Run Surface

variable {σ : Type} {run : Program σ → Run (Page σ) Value} {regs : List (String × Handler σ)}
  {s : Surface (Listener σ)} {p p' q : Page σ} {i j : Nat} {ks js : List Nat}

/-- The call of a handler: the element, the directive and the text of its attribute, and what came
of the call: whether it has taken care of what is below the element. -/
structure Call (σ : Type) where
  node : Nat
  name : String
  handler : Handler σ
  text : String
  answer : Except Error Bool

/-- What was called does not keep a tour from a node: no call above it has taken care of it, and no
call before it has failed. -/
structure ComesTo (s : Surface (Listener σ)) (calls : List (Call σ)) (j : Nat) : Prop where
  free : ∀ c ∈ calls, c.answer = .ok true → ¬s.forest.Above c.node j
  fine : ∀ c ∈ calls, ∀ e, c.answer = .error e → ¬s.forest.Precedes c.node j

theorem comesTo_append {cs calls : List (Call σ)} :
    ComesTo s (cs ++ calls) j ↔ ComesTo s cs j ∧ ComesTo s calls j := by
  constructor
  · rintro ⟨hfree, hfine⟩
    exact ⟨⟨fun c hc => hfree c (List.mem_append_left _ hc),
        fun c hc => hfine c (List.mem_append_left _ hc)⟩,
      ⟨fun c hc => hfree c (List.mem_append_right _ hc),
        fun c hc => hfine c (List.mem_append_right _ hc)⟩⟩
  · rintro ⟨h, h'⟩
    exact ⟨fun c hc => (List.mem_append.mp hc).elim (h.free c) (h'.free c),
      fun c hc => (List.mem_append.mp hc).elim (h.fine c) (h'.fine c)⟩

/-- The attribute is taken away, and the handler called. It leaves the tree alone. -/
def Call.Made (run : Program σ → Run (Page σ) Value) (c : Call σ) (p p' : Page σ) : Prop :=
  ∃ q depth, editSurface (.removeAttribute c.node c.name) p = .done () q ∧
    (handle run (compileNode run depth) c.handler c.node c.text).attempt q = .done c.answer p' ∧
    q.surface.SameTree p'.surface

/-- What an element interpolates is bound, and no element has changed. -/
structure Interpolated (run : Program σ → Run (Page σ) Value) (i : Nat) (p p' : Page σ) :
    Prop where
  done : interpolate run i p = .done () p'
  element : ∀ j tag as, p.surface.content? j = some (.element tag as) →
    p'.surface.content? j = some (.element tag as)

/-- The directive of a node of the document `s`, taken care of: the call that is made, if one
applies, and whether what is below the node is passed over. -/
inductive Directed (run : Program σ → Run (Page σ) Value) (regs : List (String × Handler σ))
    (s : Surface (Listener σ)) (i : Nat) :
    Page σ → List (Call σ) → Except Error Bool → Page σ → Prop
  | none {p : Page σ} (hnone : ∀ name handler text, ¬Chosen regs s i name handler text) :
      Directed run regs s i p [] (.ok false) p
  | called {p p' : Page σ} {name : String} {handler : Handler σ} {text : String}
      {answer : Except Error Bool} (hchosen : Chosen regs s i name handler text)
      (hmade : Call.Made run ⟨i, name, handler, text, answer⟩ p p') :
      Directed run regs s i p [⟨i, name, handler, text, answer⟩] answer p'

/-- A visit to a node of the document `s`: an element that is not passed over is interpolated. -/
inductive Visit (run : Program σ → Run (Page σ) Value) (regs : List (String × Handler σ))
    (s : Surface (Listener σ)) (i : Nat) :
    Page σ → List (Call σ) → Except Error Bool → Page σ → Prop
  | leaf {p : Page σ} (hi : ¬s.IsElement i) : Visit run regs s i p [] (.ok true) p
  | entered {p q p' : Page σ} {cs : List (Call σ)} (hi : s.IsElement i)
      (hdirected : Directed run regs s i p cs (.ok false) q) (h : Interpolated run i q p') :
      Visit run regs s i p cs (.ok false) p'
  | ended {p p' : Page σ} {cs : List (Call σ)} {answer : Except Error Bool} (hi : s.IsElement i)
      (hdirected : Directed run regs s i p cs answer p') (hanswer : answer ≠ .ok false) :
      Visit run regs s i p cs answer p'

/-- A tour through nodes of the document `s`: the calls that are made, in order, and how it ends. -/
inductive Toured (run : Program σ → Run (Page σ) Value) (regs : List (String × Handler σ))
    (s : Surface (Listener σ)) :
    List Nat → Page σ → List (Call σ) → Except Error Unit → Page σ → Prop
  | nil (p : Page σ) : Toured run regs s [] p [] (.ok ()) p
  | enter {p q p' : Page σ} {i : Nat} {ks : List Nat} {cs calls : List (Call σ)}
      {r : Except Error Unit} (h : Visit run regs s i p cs (.ok false) q)
      (hrest : Toured run regs s ks q calls r p') : Toured run regs s (i :: ks) p (cs ++ calls) r p'
  | skip {p q p' : Page σ} {i : Nat} {ks : List Nat} {cs calls : List (Call σ)}
      {r : Except Error Unit} (h : Visit run regs s i p cs (.ok true) q)
      (hrest : Toured run regs s (ks.filter (· ∉ s.forest.descendants i)) q calls r p') :
      Toured run regs s (i :: ks) p (cs ++ calls) r p'
  | failed {p q : Page σ} {i : Nat} {ks : List Nat} {cs : List (Call σ)} {e : Error}
      (h : Visit run regs s i p cs (.error e) q) : Toured run regs s (i :: ks) p cs (.error e) q

/-- The pages that a tour of the nodes `ks₀` from the page `p₀` comes to, with the nodes that are
still ahead of it there. -/
inductive Ahead (run : Program σ → Run (Page σ) Value) (regs : List (String × Handler σ))
    (s : Surface (Listener σ)) (ks₀ : List Nat) (p₀ : Page σ) : List Nat → Page σ → Prop
  | start : Ahead run regs s ks₀ p₀ ks₀ p₀
  | enter {p q : Page σ} {i : Nat} {ks : List Nat} {cs : List (Call σ)}
      (h : Ahead run regs s ks₀ p₀ (i :: ks) p) (hvisit : Visit run regs s i p cs (.ok false) q) :
      Ahead run regs s ks₀ p₀ ks q
  | skip {p q : Page σ} {i : Nat} {ks : List Nat} {cs : List (Call σ)}
      (h : Ahead run regs s ks₀ p₀ (i :: ks) p) (hvisit : Visit run regs s i p cs (.ok true) q) :
      Ahead run regs s ks₀ p₀ (ks.filter (· ∉ s.forest.descendants i)) q

/-- A call changes no element but by the attribute that is taken away. -/
theorem Call.Made.content? {c : Call σ} (h : c.Made run p p') {tag : String} {as : Entries String}
    (hel : p.surface.content? j = some (.element tag as)) : p'.surface.content? j
      = some (.element tag (if c.node = j then as.erase c.name else as)) := by
  obtain ⟨q, depth, hremove, -, htree⟩ := h
  rw [(htree.stands j).content]
  by_cases hj : c.node = j
  · rw [if_pos hj]
    subst hj
    cases hremove.symm.trans (editSurface_removeAttribute hel c.name)
    rw [content?_mapContent, if_pos rfl, hel]
    rfl
  · rw [if_neg hj]
    obtain ⟨hdone, rfl⟩ := editSurface_eq_done hremove
    have hremoved := retouched_removeAttribute (Surface.settle_eq_ok (Prod.ext hdone rfl))
    exact (hremoved.content? (Ne.symm hj)).trans hel

/-! ## One visit -/

namespace Directed

variable {cs : List (Call σ)} {a : Except Error Bool}

/-- Whoever is called is called for the directive of the node, and its answer is what comes of it. -/
theorem of_mem (h : Directed run regs s i p cs a p') {c : Call σ} (hc : c ∈ cs) :
    c.node = i ∧ Chosen regs s i c.name c.handler c.text ∧ c.answer = a := by
  cases h with
  | none _ => cases hc
  | called hchosen _ =>
    cases List.mem_singleton.mp hc
    exact ⟨rfl, hchosen, rfl⟩

/-- A node to which a directive applies is called. -/
theorem exists_mem_iff (h : Directed run regs s i p cs a p') :
    (∃ c ∈ cs, c.node = i) ↔ ∃ name handler text, Chosen regs s i name handler text := by
  cases h with
  | none hnone =>
    exact ⟨fun ⟨c, hc, _⟩ => absurd hc List.not_mem_nil,
      fun ⟨name, handler, text, hchosen⟩ => absurd hchosen (hnone name handler text)⟩
  | called hchosen _ => exact ⟨fun _ => ⟨_, _, _, hchosen⟩, fun _ => ⟨_, List.mem_cons_self, rfl⟩⟩

theorem sublist (h : Directed run regs s i p cs a p') : (cs.map (·.node)).Sublist [i] := by
  cases h with
  | none _ => exact List.nil_sublist _
  | called _ _ => exact List.Sublist.refl _

/-- Without a call nothing is passed over, and nothing fails. -/
theorem exists_mem_of_answer (h : Directed run regs s i p cs a p') (ha : a ≠ .ok false) :
    ∃ c ∈ cs, c.node = i ∧ c.answer = a := by
  cases h with
  | none _ => exact absurd rfl ha
  | called _ _ => exact ⟨_, List.mem_cons_self, rfl, rfl⟩

/-- An element that is not called keeps its attributes. -/
theorem kept (h : Directed run regs s i p cs a p') (hj : ∀ c ∈ cs, c.node ≠ j) {tag : String}
    {as : Entries String} (hel : p.surface.content? j = some (.element tag as)) :
    p'.surface.content? j = some (.element tag as) := by
  cases h with
  | none _ => exact hel
  | called _ hmade =>
    have hne := hj _ List.mem_cons_self
    exact (hmade.content? hel).trans (by rw [if_neg hne])

/-- An element that is called loses the attribute of its directive, and no other one. -/
theorem removed (h : Directed run regs s i p cs a p') {c : Call σ} (hc : c ∈ cs) {tag : String}
    {as : Entries String} (hel : p.surface.content? c.node = some (.element tag as)) :
    p'.surface.content? c.node = some (.element tag (as.erase c.name)) := by
  cases h with
  | none _ => cases hc
  | called _ hmade =>
    cases List.mem_singleton.mp hc
    exact (hmade.content? hel).trans (by rw [if_pos rfl])

end Directed

namespace Visit

variable {cs : List (Call σ)} {a : Except Error Bool}

/-- Whoever is called is called for the directive of the node, and its answer is the visit's. -/
theorem of_mem (h : Visit run regs s i p cs a p') {c : Call σ} (hc : c ∈ cs) :
    c.node = i ∧ Chosen regs s i c.name c.handler c.text ∧ c.answer = a := by
  cases h with
  | leaf _ => cases hc
  | entered _ hdirected _ => exact hdirected.of_mem hc
  | ended _ hdirected _ => exact hdirected.of_mem hc

theorem chosen (h : Visit run regs s i p cs a p') {c : Call σ} (hc : c ∈ cs) :
    Chosen regs s c.node c.name c.handler c.text := by
  obtain ⟨hnode, hchosen, -⟩ := h.of_mem hc
  exact hnode ▸ hchosen

/-- An element to which a directive applies is called. -/
theorem exists_mem_iff (h : Visit run regs s i p cs a p') (hi : s.IsElement i) :
    (∃ c ∈ cs, c.node = i) ↔ ∃ name handler text, Chosen regs s i name handler text := by
  cases h with
  | leaf hleaf => exact absurd hi hleaf
  | entered _ hdirected _ => exact hdirected.exists_mem_iff
  | ended _ hdirected _ => exact hdirected.exists_mem_iff

theorem sublist (h : Visit run regs s i p cs a p') : (cs.map (·.node)).Sublist [i] := by
  cases h with
  | leaf _ => exact List.nil_sublist _
  | entered _ hdirected _ => exact hdirected.sublist
  | ended _ hdirected _ => exact hdirected.sublist

/-- Only what is below a leaf is passed over without a call. -/
theorem exists_mem_of_skip (h : Visit run regs s i p cs (.ok true) p') (hi : s.IsElement i) :
    ∃ c ∈ cs, c.node = i ∧ c.answer = .ok true := by
  cases h with
  | leaf hleaf => exact absurd hi hleaf
  | ended _ hdirected hanswer => exact hdirected.exists_mem_of_answer hanswer

/-- Only a call fails. -/
theorem error_iff {e : Error} (h : Visit run regs s i p cs (.error e) p') (e' : Error) :
    Except.error (α := Unit) e = .error e' ↔ ∃ c ∈ cs, c.answer = .error e' := by
  cases h with
  | ended _ hdirected hanswer =>
    constructor
    · rintro ⟨⟩
      obtain ⟨c, hc, -, hcalled⟩ := hdirected.exists_mem_of_answer hanswer
      exact ⟨c, hc, hcalled⟩
    · rintro ⟨c, hc, hcalled⟩
      cases hcalled.symm.trans (hdirected.of_mem hc).2.2
      rfl

/-- A visit does not keep the tour from its own node. -/
theorem comesTo_self (hs : s.forest.Sound) (h : Visit run regs s i p cs a p') : ComesTo s cs i where
  free _ hc _ habove := hs.acyclic i ((h.of_mem hc).1 ▸ habove)
  fine _ hc _ _ hbefore := ((h.of_mem hc).1 ▸ hbefore).ne hs rfl

theorem comesTo_of_enter (h : Visit run regs s i p cs (.ok false) p') (j : Nat) :
    ComesTo s cs j where
  free _ hc hanswer := by cases (h.of_mem hc).2.2.symm.trans hanswer
  fine _ hc _ hanswer := by cases (h.of_mem hc).2.2.symm.trans hanswer

/-- An element that is not called keeps its attributes. -/
theorem kept (h : Visit run regs s i p cs a p') (hj : ∀ c ∈ cs, c.node ≠ j) {tag : String}
    {as : Entries String} (hel : p.surface.content? j = some (.element tag as)) :
    p'.surface.content? j = some (.element tag as) := by
  cases h with
  | leaf _ => exact hel
  | entered _ hdirected h => exact h.element j tag as (hdirected.kept hj hel)
  | ended _ hdirected _ => exact hdirected.kept hj hel

/-- An element that is called loses the attribute of its directive, and no other one. -/
theorem removed (h : Visit run regs s i p cs a p') {c : Call σ} (hc : c ∈ cs) {tag : String}
    {as : Entries String} (hel : p.surface.content? c.node = some (.element tag as)) :
    p'.surface.content? c.node = some (.element tag (as.erase c.name)) := by
  cases h with
  | leaf _ => cases hc
  | entered _ hdirected h => exact h.element c.node tag _ (hdirected.removed hc hel)
  | ended _ hdirected _ => exact hdirected.removed hc hel

theorem isElement_of_enter (h : Visit run regs s i p cs (.ok false) p') : s.IsElement i := by
  cases h with
  | entered hi _ _ => exact hi
  | ended hi _ hanswer => exact absurd rfl hanswer

end Visit

/-! ## The calls of a tour -/

namespace Toured

variable {calls calls' : List (Call σ)} {r : Except Error Unit}

/-- Nodes that are not below a node are not passed over with it. -/
theorem filter_append_apart (happart : ∀ j ∈ js, j ∉ s.forest.descendants i) (ks : List Nat) :
    (ks ++ js).filter (· ∉ s.forest.descendants i)
      = ks.filter (· ∉ s.forest.descendants i) ++ js := by
  rw [List.filter_append, List.filter_eq_self.mpr fun j hj => decide_eq_true (happart j hj)]

/-- A tour of some nodes and, if it does not fail, a tour of others that none of them is above. -/
theorem append (h : Toured run regs s ks p calls (.ok ()) q)
    (h' : Toured run regs s js q calls' r p')
    (happart : ∀ k ∈ ks, ∀ j ∈ js, j ∉ s.forest.descendants k) :
    Toured run regs s (ks ++ js) p (calls ++ calls') r p' := by
  generalize hend : Except.ok () = r₀ at h
  induction h with
  | nil p => exact h'
  | enter hvisit hrest ih =>
    rw [List.cons_append, List.append_assoc]
    exact .enter hvisit (ih h' (fun k hk => happart k (List.mem_cons_of_mem _ hk)) hend)
  | skip hvisit hrest ih =>
    rw [List.cons_append, List.append_assoc]
    refine .skip hvisit ?_
    rw [filter_append_apart (happart _ List.mem_cons_self)]
    exact ih h' (fun k hk => happart k (List.mem_cons_of_mem _ (List.mem_of_mem_filter hk))) hend
  | failed hvisit => cases hend

/-- After a tour of some of the nodes ahead of it, the others are ahead. -/
theorem ahead {ks₀ : List Nat} {p₀ : Page σ} (h : Toured run regs s ks p calls (.ok ()) q)
    (hahead : Ahead run regs s ks₀ p₀ (ks ++ js) p)
    (happart : ∀ k ∈ ks, ∀ j ∈ js, j ∉ s.forest.descendants k) : Ahead run regs s ks₀ p₀ js q := by
  generalize hend : Except.ok () = r₀ at h
  induction h with
  | nil p => exact hahead
  | enter hvisit _ ih =>
    exact ih (.enter hahead hvisit) (fun k hk => happart k (List.mem_cons_of_mem _ hk)) hend
  | skip hvisit _ ih =>
    rw [List.cons_append] at hahead
    have hnext := hahead.skip hvisit
    rw [filter_append_apart (happart _ List.mem_cons_self)] at hnext
    exact ih hnext (fun k hk => happart k (List.mem_cons_of_mem _ (List.mem_of_mem_filter hk))) hend
  | failed hvisit => cases hend

/-- A tour that fails comes to no more nodes. -/
theorem append_of_error {e : Error} (h : Toured run regs s ks p calls (.error e) p')
    (js : List Nat) : Toured run regs s (ks ++ js) p calls (.error e) p' := by
  generalize hend : Except.error e = r at h
  induction h generalizing js with
  | nil p => cases hend
  | enter hvisit hrest ih => exact .enter hvisit (ih js hend)
  | skip hvisit hrest ih =>
    rw [List.cons_append]
    refine .skip hvisit ?_
    rw [List.filter_append]
    exact ih _ hend
  | failed hvisit => exact .failed hvisit

/-- Nothing is done at nodes that are no elements. -/
theorem leaves (h : ∀ k ∈ ks, ¬s.IsElement k) (p : Page σ) :
    Toured run regs s ks p [] (.ok ()) p := by
  induction hn : ks.length using Nat.strongRecOn generalizing ks with
  | ind n ih =>
    cases ks with
    | nil => exact .nil p
    | cons k ks =>
      refine .skip (.leaf (h k List.mem_cons_self)) ?_
      refine ih _ ?_ (fun j hj => h j (List.mem_cons_of_mem _ (List.mem_of_mem_filter hj))) rfl
      exact hn ▸ Nat.lt_succ_of_le (List.length_filter_le _ _)

/-- The calls are made at nodes of the tour, in their order. -/
theorem sublist (h : Toured run regs s ks p calls r p') : (calls.map (·.node)).Sublist ks := by
  induction h with
  | nil p => exact List.Sublist.refl _
  | enter hvisit _ ih =>
    rw [List.map_append]
    exact hvisit.sublist.append ih
  | skip hvisit _ ih =>
    rw [List.map_append]
    exact hvisit.sublist.append (ih.trans List.filter_sublist)
  | failed hvisit => exact hvisit.sublist.trans (List.singleton_sublist.mpr List.mem_cons_self)

theorem mem (h : Toured run regs s ks p calls r p') {c : Call σ} (hc : c ∈ calls) : c.node ∈ ks :=
  h.sublist.subset (List.mem_map_of_mem hc)

/-- Whoever is called is called for the directive of its element. -/
theorem chosen (h : Toured run regs s ks p calls r p') {c : Call σ} (hc : c ∈ calls) :
    Chosen regs s c.node c.name c.handler c.text := by
  induction h with
  | nil p => cases hc
  | enter hvisit _ ih => exact (List.mem_append.mp hc).elim hvisit.chosen ih
  | skip hvisit _ ih => exact (List.mem_append.mp hc).elim hvisit.chosen ih
  | failed hvisit => exact hvisit.chosen hc

/-- A tour fails as the call does that fails. -/
theorem eq_error_iff (h : Toured run regs s ks p calls r p') (e : Error) :
    r = .error e ↔ ∃ c ∈ calls, c.answer = .error e := by
  have hmore : ∀ {cs calls : List (Call σ)} {a : Bool}, (∀ c ∈ cs, c.answer = .ok a) →
      ((∃ c ∈ cs ++ calls, c.answer = .error e) ↔ ∃ c ∈ calls, c.answer = .error e) := by
    intro cs calls a hcs
    refine ⟨?_, fun ⟨c, hc, hanswer⟩ => ⟨c, List.mem_append_right _ hc, hanswer⟩⟩
    rintro ⟨c, hc, hanswer⟩
    rcases List.mem_append.mp hc with hc | hc
    · cases (hcs c hc).symm.trans hanswer
    · exact ⟨c, hc, hanswer⟩
  induction h with
  | nil p => simp
  | enter hvisit _ ih => exact ih.trans (hmore fun c hc => (hvisit.of_mem hc).2.2).symm
  | skip hvisit _ ih => exact ih.trans (hmore fun c hc => (hvisit.of_mem hc).2.2).symm
  | failed hvisit => exact hvisit.error_iff e

/-- A node that a tour in order comes to later is not above the first one, and is another one. -/
theorem apart (hs : s.forest.Sound) (hks : (i :: ks).Pairwise s.forest.Precedes) (hj : j ∈ ks) :
    j ≠ i ∧ ¬s.forest.Above j i ∧ ¬s.forest.Precedes j i := by
  have hij : s.forest.Precedes i j := List.rel_of_pairwise_cons hks hj
  exact ⟨(hij.ne hs).symm, fun h => (Forest.Precedes.above h).asymm hs hij,
    fun h => h.asymm hs hij⟩

/-- Above the elements that are called there are no nodes of other kinds on the tour. -/
theorem isElement_above (hs : s.forest.Sound) (hks : ks.Pairwise s.forest.Precedes)
    (h : Toured run regs s ks p calls r p') {c : Call σ} (hc : c ∈ calls) {k : Nat} (hk : k ∈ ks)
    (hkc : s.forest.Above k c.node) : s.IsElement k := by
  have hfirst : ∀ {i : Nat} {ks : List Nat}, (i :: ks).Pairwise s.forest.Precedes → k ∈ i :: ks →
      ¬s.forest.Above k i := by
    intro i ks hks hk habove
    rcases List.mem_cons.mp hk with rfl | hk
    · exact hs.acyclic k habove
    · exact (apart hs hks hk).2.1 habove
  induction h with
  | nil p => cases hc
  | enter hvisit hrest ih =>
    rcases List.mem_append.mp hc with hc | hc
    · exact absurd ((hvisit.of_mem hc).1 ▸ hkc) (hfirst hks hk)
    · rcases List.mem_cons.mp hk with rfl | hk
      · exact hvisit.isElement_of_enter
      · exact ih (List.pairwise_cons.mp hks).2 hc hk
  | skip hvisit hrest ih =>
    rcases List.mem_append.mp hc with hc | hc
    · exact absurd ((hvisit.of_mem hc).1 ▸ hkc) (hfirst hks hk)
    · -- what is below the first node is not called, and neither is it above what is called
      have hout := of_decide_eq_true (List.mem_filter.mp (hrest.mem hc)).2
      rw [Forest.mem_descendants_iff hs] at hout
      rcases List.mem_cons.mp hk with rfl | hk
      · exact absurd hkc hout
      · refine ih ((List.pairwise_cons.mp hks).2.filter _) hc
          (List.mem_filter.mpr ⟨hk, decide_eq_true fun hbelow => ?_⟩)
        exact hout (((Forest.mem_descendants_iff hs).mp hbelow).trans hkc)
  | failed hvisit => exact absurd ((hvisit.of_mem hc).1 ▸ hkc) (hfirst hks hk)

/-- What is called after the first node of a tour does not count for this node. -/
theorem comesTo_first (hs : s.forest.Sound) (hks : (i :: ks).Pairwise s.forest.Precedes)
    (hcalls : ∀ c ∈ calls, c.node ∈ ks) : ComesTo s calls i where
  free c hc _ := (apart hs hks (hcalls c hc)).2.1
  fine c hc _ _ := (apart hs hks (hcalls c hc)).2.2

/-- The first node of a tour is called if a directive applies to it. -/
theorem first_iff (hs : s.forest.Sound) (hks : (i :: ks).Pairwise s.forest.Precedes)
    (hi : s.IsElement i) {cs : List (Call σ)} {a : Except Error Bool}
    (hvisit : Visit run regs s i p cs a q) (hcalls : ∀ c ∈ calls, c.node ∈ ks) :
    (∃ c ∈ cs ++ calls, c.node = i) ↔
      (∃ name handler text, Chosen regs s i name handler text) ∧ ComesTo s (cs ++ calls) i := by
  have hcomes : ComesTo s (cs ++ calls) i :=
    comesTo_append.mpr ⟨hvisit.comesTo_self hs, comesTo_first hs hks hcalls⟩
  rw [and_iff_left hcomes, ← hvisit.exists_mem_iff hi]
  refine ⟨?_, fun ⟨c, hc, hnode⟩ => ⟨c, List.mem_append_left _ hc, hnode⟩⟩
  rintro ⟨c, hc, hnode⟩
  rcases List.mem_append.mp hc with hc | hc
  · exact ⟨c, hc, hnode⟩
  · exact absurd hnode (apart hs hks (hcalls c hc)).1

/-- The elements that are called: those to which a directive applies, as far as the tour comes to
them. -/
theorem called_iff (hs : s.forest.Sound) (hks : ks.Pairwise s.forest.Precedes)
    (h : Toured run regs s ks p calls r p') (hj : j ∈ ks)
    (helements : ∀ k ∈ ks, s.forest.Spans k j → s.IsElement k) :
    (∃ c ∈ calls, c.node = j) ↔
      (∃ name handler text, Chosen regs s j name handler text) ∧ ComesTo s calls j := by
  -- a later node is not called by the first visit
  have hlater : ∀ {i : Nat} {p q : Page σ} {cs calls : List (Call σ)} {a : Except Error Bool},
      Visit run regs s i p cs a q → j ≠ i →
      ((∃ c ∈ cs ++ calls, c.node = j) ↔ ∃ c ∈ calls, c.node = j) := by
    intro i p q cs calls a hvisit hne
    refine ⟨?_, fun ⟨c, hc, hnode⟩ => ⟨c, List.mem_append_right _ hc, hnode⟩⟩
    rintro ⟨c, hc, hnode⟩
    rcases List.mem_append.mp hc with hc | hc
    · exact absurd (hnode.symm.trans (hvisit.of_mem hc).1) hne
    · exact ⟨c, hc, hnode⟩
  induction h with
  | nil p => cases hj
  | enter hvisit hrest ih =>
    rcases List.mem_cons.mp hj with rfl | hj
    · exact first_iff hs hks (helements _ List.mem_cons_self (.inl rfl)) hvisit
        fun c hc => hrest.mem hc
    · rw [hlater hvisit (apart hs hks hj).1, comesTo_append,
        and_iff_right (hvisit.comesTo_of_enter j)]
      exact ih (List.pairwise_cons.mp hks).2 hj fun k hk => helements k (List.mem_cons_of_mem _ hk)
  | @skip p q p' i ks cs calls r hvisit hrest ih =>
    rcases List.mem_cons.mp hj with rfl | hj
    · exact first_iff hs hks (helements _ List.mem_cons_self (.inl rfl)) hvisit
        fun c hc => List.mem_of_mem_filter (hrest.mem hc)
    · rw [hlater hvisit (apart hs hks hj).1]
      by_cases habove : s.forest.Above i j
      · -- what is below the first node is passed over
        obtain ⟨c, hc, hnode, hanswer⟩ :=
          hvisit.exists_mem_of_skip (helements i List.mem_cons_self (.inr habove))
        refine iff_of_false ?_ fun hcomes =>
          hcomes.2.free c (List.mem_append_left _ hc) hanswer (hnode ▸ habove)
        rintro ⟨d, hd, rfl⟩
        exact of_decide_eq_true (List.mem_filter.mp (hrest.mem hd)).2
          ((Forest.mem_descendants_iff hs).mpr habove)
      · have hcomes : ComesTo s cs j :=
          ⟨fun c hc _ => (hvisit.of_mem hc).1 ▸ habove,
            fun c hc e hanswer => by cases (hvisit.of_mem hc).2.2.symm.trans hanswer⟩
        rw [comesTo_append, and_iff_right hcomes]
        refine ih ((List.pairwise_cons.mp hks).2.filter _) (List.mem_filter.mpr ⟨hj, ?_⟩)
          fun k hk => helements k (List.mem_cons_of_mem _ (List.mem_of_mem_filter hk))
        exact decide_eq_true fun hbelow => habove ((Forest.mem_descendants_iff hs).mp hbelow)
  | @failed p q i ks cs e hvisit =>
    rcases List.mem_cons.mp hj with rfl | hj
    · have hnone : ∀ c ∈ ([] : List (Call σ)), c.node ∈ ks := nofun
      have hfirst := first_iff hs hks (helements _ List.mem_cons_self (.inl rfl)) hvisit hnone
      rwa [List.append_nil] at hfirst
    · obtain ⟨c, hc, hanswer⟩ := (hvisit.error_iff e).mp rfl
      refine iff_of_false ?_ fun hcomes => hcomes.2.fine c hc e hanswer ?_
      · rintro ⟨d, hd, rfl⟩
        exact (apart hs hks hj).1 (hvisit.of_mem hd).1
      · rw [(hvisit.of_mem hc).1]
        exact List.rel_of_pairwise_cons hks hj

/-! ## The elements after a tour -/

/-- An element that is not called keeps its attributes. -/
theorem kept (h : Toured run regs s ks p calls r p') (hj : ∀ c ∈ calls, c.node ≠ j) {tag : String}
    {as : Entries String} (hel : p.surface.content? j = some (.element tag as)) :
    p'.surface.content? j = some (.element tag as) := by
  induction h with
  | nil p => exact hel
  | enter hvisit _ ih =>
    exact ih (fun c hc => hj c (List.mem_append_right _ hc))
      (hvisit.kept (fun c hc => hj c (List.mem_append_left _ hc)) hel)
  | skip hvisit _ ih =>
    exact ih (fun c hc => hj c (List.mem_append_right _ hc))
      (hvisit.kept (fun c hc => hj c (List.mem_append_left _ hc)) hel)
  | failed hvisit => exact hvisit.kept hj hel

/-- An element that is called loses the attribute of its directive, and no other one. -/
theorem removed (hks : ks.Nodup) (h : Toured run regs s ks p calls r p') {c : Call σ}
    (hc : c ∈ calls) {tag : String} {as : Entries String}
    (hel : p.surface.content? c.node = some (.element tag as)) :
    p'.surface.content? c.node = some (.element tag (as.erase c.name)) := by
  induction h with
  | nil p => cases hc
  | enter hvisit hrest ih =>
    obtain ⟨hi, hks⟩ := List.nodup_cons.mp hks
    rcases List.mem_append.mp hc with hc | hc
    · refine hrest.kept (fun d hd heq => hi ?_) (hvisit.removed hc hel)
      rw [← (hvisit.of_mem hc).1, ← heq]
      exact hrest.mem hd
    · refine ih hks hc (hvisit.kept (fun d hd heq => hi ?_) hel)
      rw [← (hvisit.of_mem hd).1, heq]
      exact hrest.mem hc
  | skip hvisit hrest ih =>
    obtain ⟨hi, hks⟩ := List.nodup_cons.mp hks
    rcases List.mem_append.mp hc with hc | hc
    · refine hrest.kept (fun d hd heq => hi ?_) (hvisit.removed hc hel)
      rw [← (hvisit.of_mem hc).1, ← heq]
      exact List.mem_of_mem_filter (hrest.mem hd)
    · refine ih (hks.filter _) hc (hvisit.kept (fun d hd heq => hi ?_) hel)
      rw [← (hvisit.of_mem hd).1, heq]
      exact List.mem_of_mem_filter (hrest.mem hc)
  | failed hvisit => exact hvisit.removed hc hel

end Toured

/-! ## Tours of a whole part -/

/-- What compiling the element `i` of the document `s` comes to: the calls that are made, how it
ends, and what the document is afterwards. -/
structure Compiled (regs : List (String × Handler σ)) (s : Surface (Listener σ)) (i : Nat)
    (calls : List (Call σ)) (r : Except Error Unit) (s' : Surface (Listener σ)) : Prop where
  /-- Elements are called in document order. -/
  order : (calls.map (·.node)).Pairwise s.forest.Precedes
  /-- Each of them is called for the directive that applies to it. -/
  chosen : ∀ c ∈ calls, Chosen regs s c.node c.name c.handler c.text
  /-- All are called to which one applies, as far as the walk comes to them, and no others. -/
  called : ∀ j, (∃ c ∈ calls, c.node = j) ↔
    s.Inside i j ∧ (∃ name handler text, Chosen regs s j name handler text) ∧ ComesTo s calls j
  /-- Compiling fails as a call does. -/
  failed : ∀ e, r = .error e ↔ ∃ c ∈ calls, c.answer = .error e
  /-- Of each element that is called the attribute of its directive is taken away, -/
  removed : ∀ c ∈ calls, ∀ tag as, s.content? c.node = some (.element tag as) →
    s'.content? c.node = some (.element tag (as.erase c.name))
  /-- and nothing else. -/
  kept : ∀ j tag as, (∀ c ∈ calls, c.node ≠ j) → s.content? j = some (.element tag as) →
    s'.content? j = some (.element tag as)

theorem mem_cons_descendants_iff (hs : s.forest.Sound) :
    j ∈ i :: s.forest.descendants i ↔ s.forest.Spans i j := by
  rw [List.mem_cons, Forest.mem_descendants_iff hs]
  exact or_congr_left eq_comm

/-- A node beside another one is not below any that is below it. -/
theorem not_mem_descendants_of_beside (hs : s.forest.Sound) {k : Nat} (hj : ¬s.forest.Spans i j)
    (hk : k ∈ i :: s.forest.descendants i) : j ∉ s.forest.descendants k := fun hkj =>
  hj (((mem_cons_descendants_iff hs).mp hk).trans (.inr ((Forest.mem_descendants_iff hs).mp hkj)))

theorem pairwise_cons_descendants (hs : s.forest.Sound) (i : Nat) :
    (i :: s.forest.descendants i).Pairwise s.forest.Precedes :=
  List.pairwise_cons.mpr ⟨fun _ hj => .above ((Forest.mem_descendants_iff hs).mp hj),
    Forest.pairwise_descendants hs i⟩

/-- A tour of an element and all below it. -/
theorem Toured.compiled (hs : p.surface.WellFormed) {calls : List (Call σ)} {r : Except Error Unit}
    (h : Toured run regs p.surface (i :: p.surface.forest.descendants i) p calls r p') :
    Compiled regs p.surface i calls r p'.surface := by
  have hf := hs.sound_forest
  have horder := pairwise_cons_descendants hf i
  refine ⟨horder.sublist h.sublist, fun c hc => h.chosen hc, fun j => ?_, h.eq_error_iff,
    fun c hc tag as => h.removed (Forest.nodup_of_pairwise hf horder) hc,
    fun j tag as hj => h.kept hj⟩
  constructor
  · intro hcalled
    obtain ⟨c, hc, rfl⟩ := id hcalled
    have helements : ∀ k ∈ i :: p.surface.forest.descendants i,
        p.surface.forest.Spans k c.node → p.surface.IsElement k := by
      rintro k hk (rfl | habove)
      · exact (h.chosen hc).isElement
      · exact h.isElement_above hf horder hc hk habove
    refine ⟨(inside_iff hs.toSound hf.acyclic).mpr ⟨(mem_cons_descendants_iff hf).mp (h.mem hc),
      fun k hik => helements k ((mem_cons_descendants_iff hf).mpr hik)⟩, ?_⟩
    exact (h.called_iff hf horder (h.mem hc) helements).mp hcalled
  · rintro ⟨hinside, hcomes⟩
    obtain ⟨hspans, helements⟩ := (inside_iff hs.toSound hf.acyclic).mp hinside
    exact (h.called_iff hf horder ((mem_cons_descendants_iff hf).mpr hspans) fun k hk =>
      helements k ((mem_cons_descendants_iff hf).mp hk)).mpr hcomes

end Page

end ReactiveView
