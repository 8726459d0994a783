import ReactiveView.Proofs.Page.Policy
import ReactiveView.Proofs.Page.Tour
import ReactiveView.Proofs.Page.TwoWay
import ReactiveView.Proofs.Page.WriteBack
import ReactiveView.Proofs.Surface.Attributes
/-!
# Compiling in document order

Compiling an element is a tour of it and of all below it, if the handlers and what is evaluated on
the way leave the surface alone. Then each part of the tree is found as it was: what is compiled
changes an attribute of each element that is called, and the texts of those that interpolate.

Whether they do may depend on what was called before. So this is asked for an element only on the
pages that a tour comes to there.

Results:
* `Ahead.changes`: what single changes keep holds of these pages.
* `exists_visit`: what is done at an element.
* `compileNode_tours`: what is done at an element and below it.
* `compile_in_order`: the calls that compiling makes.
-/
namespace ReactiveView

namespace Page

open Relation Run Surface

variable {σ : Type} {run : Program σ → Run (Page σ) Value} {regs : List (String × Handler σ)}
  {s : Surface (Listener σ)} {p₀ p p' q : Page σ} {ks₀ : List Nat} {depth i : Nat}

/-! ## What single changes keep -/

theorem Change.registry {rules : Rules σ} (h : Change rules p p') : p'.registry = p.registry := by
  cases h <;> rfl

theorem sound_of_changes {rules : Rules σ} (h : ReflTransGen (Change rules) p p')
    (hp : p.surface.Sound) : p'.surface.Sound :=
  keeps_of_steps (I := fun q : Page σ => q.surface.Sound) (fun _ _ hstep hq => hstep.surface_sound hq)
    hp h

/-! ## Pages on the way -/

/-- A page on the way through the document `s`: the directives are there, and all nodes. -/
structure Underway (regs : List (String × Handler σ)) (s : Surface (Listener σ)) (p : Page σ) :
    Prop where
  registry : p.registry = Registry.ofList regs
  sound : p.surface.Sound
  size : s.size ≤ p.surface.size

theorem Underway.next (hp : Underway regs s p) (h : ReflTransGen (Change .all) p p')
    (hsize : p.surface.size ≤ p'.surface.size) : Underway regs s p' where
  registry := keeps_of_steps (I := fun q : Page σ => q.registry = Registry.ofList regs)
    (fun _ _ hstep hq => hstep.registry.trans hq) hp.registry h
  sound := sound_of_changes h hp.sound
  size := Nat.le_trans hp.size hsize

section

variable (hrun : ∀ program p, Tracks (Change .all) (run program) (run program) p)

include hrun

theorem Directed.changes {cs : List (Call σ)} {a : Except Error Bool}
    (h : Directed run regs s i p cs a p') : ReflTransGen (Change .all) p p' := by
  cases h with
  | none _ => exact .refl
  | called _ hmade =>
    obtain ⟨q, depth, hremove, hattempt, -⟩ := hmade
    exact ((tracks_editSurface _).done hremove).2.trans
      ((tracks_handle hrun (fun j _ => tracks_compileNode hrun (Nat.le_refl depth) j)
        _ i _).attempt.done hattempt).2

theorem Visit.changes {cs : List (Call σ)} {a : Except Error Bool}
    (h : Visit run regs s i p cs a p') : ReflTransGen (Change .all) p p' := by
  cases h with
  | leaf _ => exact .refl
  | entered _ hdirected h =>
    exact (hdirected.changes hrun).trans ((tracks_interpolate hrun i).done h.done).2
  | ended _ hdirected _ => exact hdirected.changes hrun

/-- The pages that a tour comes to are later ones. -/
theorem Ahead.changes {ks : List Nat} (h : Ahead run regs s ks₀ p₀ ks p) :
    ReflTransGen (Change .all) p₀ p := by
  induction h with
  | start => exact .refl
  | enter _ hvisit ih => exact ih.trans (hvisit.changes hrun)
  | skip _ hvisit ih => exact ih.trans (hvisit.changes hrun)

end

/-- Compiling is not disturbed at a node of the document `s` when it comes to the page `p` there: the
handler that is called comes to an end and leaves the tree alone, and what is interpolated after it
is the text of the node, is bound without an error and leaves the tree alone when it is evaluated. -/
structure Undisturbed (run : Program σ → Run (Page σ) Value) (regs : List (String × Handler σ))
    (s : Surface (Listener σ)) (i : Nat) (p : Page σ) : Prop where
  handles : ∀ name handler text, Chosen regs s i name handler text → ∀ q,
    editSurface (.removeAttribute i name) p = .done () q → ∀ depth,
    (handle run (compileNode run depth) handler i text q).Ends
      (fun p' => q.surface.SameTree p'.surface) (fun p' => q.surface.SameTree p'.surface) False
  texts : ∀ source, s.interpolation? i = some source →
    ∀ c ∈ s.forest.children i, ∃ t, s.content? c = some (.text t)
  binds : ∀ source, s.interpolation? i = some source →
    ∀ cs q, Directed run regs s i p cs (.ok false) q →
    ∃ p', bind run i source ⟨.content, none, false, .page⟩ q = .done () p'
  evaluates : ∀ source, s.interpolation? i = some source →
    ∀ cs q, Directed run regs s i p cs (.ok false) q → ∀ v p',
    evaluate run (Text.trimmed source) .page q = .done v p' → q.surface.SameTree p'.surface

/-! ## What an element interpolates -/

/-- A binding of the content of a node evaluates the expression and writes its text. -/
theorem surface_of_bind {source : String}
    (h : bind run i source ⟨.content, none, false, .page⟩ p = .done () p') : ∃ v p₁,
      evaluate run (Text.trimmed source) .page p = .done v p₁ ∧
      p₁.surface.setText i v.render = (.ok (), p'.surface) := by
  unfold bind at h
  obtain ⟨e, p₀, hread, hrest⟩ := bind_eq_done h
  obtain ⟨-, rfl⟩ := ofExcept_eq_done hread
  obtain ⟨_, p₂, hrender, hobserve⟩ := bind_eq_done hrest
  obtain ⟨v, p₁, hevaluate, hwrite⟩ := bind_eq_done hrender
  obtain ⟨hset, rfl⟩ := editSurface_eq_done hwrite
  refine ⟨v, p₁, (bind_of_done hread).trans hevaluate, Prod.ext hset ?_⟩
  -- observing the graph leaves the surface alone
  show (p₁.surface.apply (.setText i v.render)).2 = p'.surface
  split at hobserve
  · cases hobserve
    rfl
  · obtain ⟨found, p₃, hlook, hrest⟩ := bind_eq_done hobserve
    obtain ⟨-, rfl⟩ := look_eq_done hlook
    cases found with
    | none =>
      cases hrest
      rfl
    | some id =>
      obtain ⟨_, p₄, hgraph, hlast⟩ := bind_eq_done hrest
      obtain ⟨graph, -, rfl⟩ := edit_eq_done hgraph
      cases hlast
      rfl

/-- What is left of an element to compile once it has been visited: its children, or nothing but a
text. -/
def Remains (s s' : Surface (Listener σ)) (i : Nat) : Prop :=
  Intact s s' i ∨ (∃ t, s'.ShowsText i t) ∧ s.forest.children i ≠ [] ∧
    ∀ c ∈ s.forest.children i, ∃ t, s.content? c = some (.text t)

theorem interpolate_of_some {source : String} (h : p.surface.interpolation? i = some source)
    (run : Program σ → Run (Page σ) Value) :
    interpolate run i p = bind run i source ⟨.content, none, false, .page⟩ p := by
  cases hmarkup : p.surface.innerMarkup i with
  | ok markup =>
    rw [interpolation?_of_innerMarkup hmarkup] at h
    unfold interpolate
    rw [askSurface_bind hmarkup, h]
  | error e =>
    rw [Surface.interpolation?, hmarkup] at h
    cases h

/-- What is below an element, compiled. -/
def compileBelow (run : Program σ → Run (Page σ) Value) (depth i : Nat) : Run (Page σ) Unit := do
  let children ← askSurface fun s => s.children i
  children.forM (compileChild run depth i)

theorem attempt_compileNode (hi : p.surface.IsElement i) (run : Program σ → Run (Page σ) Value)
    (depth : Nat) : (compileNode run (depth + 1) i).attempt p
      = (applyDirective run (compileNode run depth) i >>= fun stopped =>
          if stopped then pure ()
          else interpolate run i >>= fun _ => compileBelow run depth i).attempt p := by
  obtain ⟨tag, as, hel⟩ := hi
  rw [Run.attempt, Run.attempt, compileNode, askSurface_bind (content_of_content? hel)]
  rfl

theorem compileNode_of_not_element {c : Content} (hc : p.surface.content? i = some c)
    (hi : ¬p.surface.IsElement i) (run : Program σ → Run (Page σ) Value) (depth : Nat) :
    compileNode run (depth + 1) i p = .done () p := by
  rw [compileNode, askSurface_bind (content_of_content? hc)]
  cases c with
  | element tag as => exact absurd ⟨tag, as, hc⟩ hi
  | document => rfl
  | text t => rfl
  | comment t => rfl

section

variable (hrun : ∀ program p, Tracks (Change .all) (run program) (run program) p)
  (hs : s.WellFormed)

include hrun hs

/-- What an intact element interpolates is bound, and nothing but texts changes. -/
theorem exists_interpolated (hi : s.IsElement i) (h : Undisturbed run regs s i q)
    {cs : List (Call σ)} (hdirected : Directed run regs s i q cs (.ok false) p)
    (hp : Underway regs s p) (hintact : Intact s p.surface i) : ∃ p', Interpolated run i p p' ∧
      Underway regs s p' ∧ ChangesIn (s.forest.Spans i) p.surface p'.surface ∧
      Remains s p'.surface i := by
  have hsame := hintact.interpolation? hs hp.size hi
  cases hsource : s.interpolation? i with
  | none =>
    obtain ⟨tag, as, hel⟩ := hintact.element
    obtain ⟨markup, hmarkup⟩ : ∃ markup, p.surface.innerMarkup i = .ok markup :=
      ⟨_, by rw [innerMarkup, children_of_content? hel]; rfl⟩
    have hnone : Template.interpolation? markup = none := by
      rw [← interpolation?_of_innerMarkup hmarkup, hsame, hsource]
    exact ⟨p, ⟨interpolate_of_none hmarkup hnone run, fun _ _ _ h => h⟩, hp, .refl _ _, .inl hintact⟩
  | some source =>
    obtain ⟨p', hbind⟩ := h.binds source hsource cs p hdirected
    obtain ⟨v, p₁, hevaluate, hset⟩ := surface_of_bind hbind
    have htree := h.evaluates source hsource cs p hdirected v p₁ hevaluate
    have hsound : p₁.surface.Sound :=
      sound_of_changes ((tracks_evaluate hrun _ _).done hevaluate).2 hp.sound
    have hchildren : p₁.surface.forest.children i = s.forest.children i :=
      (htree.stands i).children.trans hintact.children
    obtain ⟨surface, hset', hshows, hchanges, helement⟩ := setText_changesIn hsound
      ((htree.stands i).isElement_iff.mpr hintact.element) v.render
    obtain rfl : p'.surface = surface := congrArg Prod.snd (hset.symm.trans hset')
    have hchanges : ChangesIn (s.forest.Spans i) p.surface p'.surface := by
      refine (htree.changesIn _).trans (hchanges.mono fun j hj => hj.imp_right fun hmem => ?_)
      exact .parent ((hs.linked.iff i j).mp (hchildren ▸ hmem))
    refine ⟨p', ⟨?_, fun j tag as hj => ?_⟩, hp.next ?_ hchanges.size, hchanges,
      .inr ⟨⟨_, hshows⟩, fun hnil => ?_, h.texts source hsource⟩⟩
    · rw [interpolate_of_some (hsame.trans hsource), hbind]
    · exact helement j tag as ((htree.stands j).content.trans hj)
    · exact ((tracks_bind hrun i source _).done hbind).2
    · -- an element without children interpolates nothing
      obtain ⟨markup, hmarkup, hnone⟩ := interpolation?_of_elements hi fun c hc =>
        absurd (hnil ▸ hc) List.not_mem_nil
      rw [interpolation?_of_innerMarkup hmarkup, hnone] at hsource
      cases hsource

/-- How compiling an element goes on after a visit with an answer. -/
inductive Goes (run : Program σ → Run (Page σ) Value) (depth i : Nat) (s : Surface (Listener σ))
    (p p' : Page σ) : Except Error Bool → Prop
  | failed {e : Error} (h : (compileNode run (depth + 1) i).attempt p = .done (.error e) p') :
      Goes run depth i s p p' (.error e)
  | skip (h : (compileNode run (depth + 1) i).attempt p = .done (.ok ()) p') :
      Goes run depth i s p p' (.ok true)
  | enter (h : (compileNode run (depth + 1) i).attempt p = (compileBelow run depth i).attempt p')
      (hremains : Remains s p'.surface i) : Goes run depth i s p p' (.ok false)

/-- The directive of an element that is found as it was is taken care of, which leaves it intact. -/
theorem exists_directed (h : Undisturbed run regs s i p) (hp : Underway regs s p)
    (hself : Stands s p.surface i) (hintact : Intact s p.surface i) (depth : Nat) :
    ∃ calls answer q, Directed run regs s i p calls answer q ∧ Underway regs s q ∧
      ChangesIn (s.forest.Spans i) p.surface q.surface ∧ Intact s q.surface i ∧
      (applyDirective run (compileNode run depth) i).attempt p = .done answer q := by
  have hlook : Run.look (fun p : Page σ => p.applicable? i) p = .done (p.applicable? i) p := rfl
  cases happlies : p.applicable? i with
  | none =>
    rw [happlies] at hlook
    refine ⟨[], .ok false, p, .none fun name handler text hchosen => ?_, hp, .refl _ _, hintact,
      attempt_of_done (bind_of_done hlook)⟩
    have hsome := (applicable?_eq_some_iff hp.registry).mpr (hchosen.congr hself.content)
    rw [happlies] at hsome
    cases hsome
  | some directive =>
    obtain ⟨name, handler, text⟩ := directive
    rw [happlies] at hlook
    have hchosen : Chosen regs s i name handler text :=
      ((applicable?_eq_some_iff hp.registry).mp happlies).congr hself.content.symm
    obtain ⟨tag, as, hel⟩ := id hintact.element
    have hremove := editSurface_removeAttribute hel name
    have htree := (redresses_rewrite hel (as.erase name)).2.tree
    have hsize := Nat.le_trans hp.size htree.changesIn.size
    have hremoved := hintact.of_changesIn hs hp.size htree.changesIn
      (htree.isElement hintact.element) (htree.children i)
    obtain ⟨answer, p', hattempt, hsame⟩ :=
      exists_attempt (h.handles name handler text hchosen _ hremove depth)
    have hdirected := Directed.called hchosen ⟨_, depth, hremove, hattempt, hsame⟩
    have hchanges : ChangesIn (s.forest.Spans i) p.surface p'.surface :=
      (htree.changesIn.mono fun j hj => .inl hj.symm).trans (hsame.changesIn _)
    refine ⟨_, answer, p', hdirected, hp.next (hdirected.changes hrun) hchanges.size, hchanges,
      hremoved.of_changesIn hs hsize (hsame.changesIn _)
        ((hsame.stands i).isElement_iff.mpr hremoved.element) (hsame.stands i).children, ?_⟩
    exact (attempt_bind_of_done hlook).trans ((attempt_bind_of_done hremove).trans hattempt)

/-- An element that is found as it was is visited. -/
theorem exists_visit (hi : s.IsElement i) (h : Undisturbed run regs s i p)
    (hp : Underway regs s p) (hfound : ∀ j, s.forest.Spans i j → Stands s p.surface j)
    (depth : Nat) : ∃ calls answer p', Visit run regs s i p calls answer p' ∧
      Underway regs s p' ∧ ChangesIn (s.forest.Spans i) p.surface p'.surface ∧
      Goes run depth i s p p' answer := by
  have hself := hfound i (.inl rfl)
  have hat := hself.isElement_iff.mpr hi
  have hintact : Intact s p.surface i := ⟨hat, hself.children, fun j hj => hfound j (.inr hj)⟩
  obtain ⟨calls, answer, q, hdirected, hq, hchanges, hintact, hdirective⟩ :=
    exists_directed hrun hs h hp hself hintact depth
  cases answer with
  | error e =>
    refine ⟨calls, _, q, .ended hi hdirected (by simp), hq, hchanges, .failed ?_⟩
    rw [attempt_compileNode hat]
    exact attempt_of_failed (bind_of_failed (attempt_eq_error hdirective))
  | ok stopped =>
    cases stopped with
    | true =>
      refine ⟨calls, _, q, .ended hi hdirected (by simp), hq, hchanges, .skip ?_⟩
      rw [attempt_compileNode hat]
      exact attempt_bind_of_done (attempt_eq_ok hdirective)
    | false =>
      obtain ⟨p', hinterpolated, hp', hchanges', hremains⟩ :=
        exists_interpolated hrun hs hi h hdirected hq hintact
      refine ⟨calls, _, p', .entered hi hdirected hinterpolated, hp', hchanges.trans hchanges',
        .enter ?_ hremains⟩
      rw [attempt_compileNode hat]
      exact (attempt_bind_of_done (attempt_eq_ok hdirective)).trans
        (attempt_bind_of_done hinterpolated.done)

end

/-! ## The walk -/

/-- A walk over what the nodes `ks` of the document span is a tour of it, wherever a tour of the
nodes `ks₀` has it ahead and it is found as it was, and changes nothing else. -/
def Tours (run : Program σ → Run (Page σ) Value) (regs : List (String × Handler σ))
    (s : Surface (Listener σ)) (ks₀ : List Nat) (p₀ : Page σ) (walk : Run (Page σ) Unit)
    (ks : List Nat) : Prop :=
  ∀ p js, Ahead run regs s ks₀ p₀ ((ks.flatMap fun k => k :: s.forest.descendants k) ++ js) p →
    (∀ k ∈ ks, ∀ j ∈ js, ¬s.forest.Spans k j) → Underway regs s p →
    (∀ k ∈ ks, ∀ j, s.forest.Spans k j → Stands s p.surface j) →
    ∃ calls r p', Toured run regs s (ks.flatMap fun k => k :: s.forest.descendants k) p calls r p' ∧
      walk.attempt p = .done r p' ∧ Underway regs s p' ∧
      ChangesIn (fun j => ∃ k ∈ ks, s.forest.Spans k j) p.surface p'.surface

section

variable (hs : s.WellFormed)

include hs

/-- Children in a row: what is below one of them is not below another one, so each is found as it
was. -/
theorem tours_children {cs : List Nat} (hnodup : cs.Nodup) (hcs : ∀ c ∈ cs, c ∈ s.forest.children i)
    (htours : ∀ c ∈ cs, Tours run regs s ks₀ p₀ (compileNode run depth c) [c]) :
    Tours run regs s ks₀ p₀ (cs.forM (compileChild run depth i)) cs := by
  induction cs with
  | nil => exact fun p js _ _ hp _ => ⟨[], .ok (), p, .nil p, rfl, hp, .refl _ _⟩
  | cons c cs ih =>
    intro p js hahead hbeside hp hfound
    obtain ⟨hc, hnodup⟩ := List.nodup_cons.mp hnodup
    have hparent : ∀ d ∈ c :: cs, s.forest.parent? d = some i :=
      fun d hd => (hs.linked.iff i d).mp (hcs d hd)
    have hapart : ∀ j, (∃ d ∈ cs, s.forest.Spans d j) → ¬s.forest.Spans c j := by
      rintro j ⟨d, hd, hdj⟩ hcj
      have heq := hs.sound_forest.eq_of_spans (hparent c List.mem_cons_self)
        (hparent d (List.mem_cons_of_mem _ hd)) hcj hdj
      exact hc (heq ▸ hd)
    have hplace : c ∈ p.surface.forest.children i := by
      refine (hp.sound.linked.iff i c).mpr ?_
      rw [(hfound c List.mem_cons_self c (.inl rfl)).parent]
      exact hparent c List.mem_cons_self
    -- the nodes that are ahead after the first child
    have hlater : ∀ j ∈ (cs.flatMap fun k => k :: s.forest.descendants k) ++ js,
        ¬s.forest.Spans c j := by
      intro j hj
      rcases List.mem_append.mp hj with hj | hj
      · obtain ⟨d, hd, hj⟩ := List.mem_flatMap.mp hj
        exact hapart j ⟨d, hd, (mem_cons_descendants_iff hs.sound_forest).mp hj⟩
      · exact hbeside c List.mem_cons_self j hj
    rw [List.flatMap_cons, List.append_assoc] at hahead
    obtain ⟨calls, r, p₁, htoured, hattempt, hp₁, hchanges⟩ := htours c List.mem_cons_self p
      ((cs.flatMap fun k => k :: s.forest.descendants k) ++ js)
      (by rwa [List.flatMap_singleton]) (fun k hk => List.mem_singleton.mp hk ▸ hlater) hp
      fun k hk => hfound k (List.mem_singleton.mp hk ▸ List.mem_cons_self)
    rw [List.flatMap_singleton] at htoured
    rw [Run.attempt, ← compileChild_of_mem hp.sound hplace, ← Run.attempt] at hattempt
    cases r with
    | error e =>
      refine ⟨calls, .error e, p₁, ?_, ?_, hp₁, hchanges.mono ?_⟩
      · rw [List.flatMap_cons]
        exact htoured.append_of_error _
      · exact attempt_of_failed (bind_of_failed (attempt_eq_error hattempt))
      · rintro j ⟨k, hk, hj⟩
        exact ⟨k, List.mem_singleton.mp hk ▸ List.mem_cons_self, hj⟩
    | ok u =>
      -- what is below the children to come was not touched
      obtain ⟨calls', r, p', htoured', hattempt', hp', hchanges'⟩ := ih hnodup
        (fun d hd => hcs d (List.mem_cons_of_mem _ hd))
        (fun d hd => htours d (List.mem_cons_of_mem _ hd)) p₁ js
        (htoured.ahead hahead fun k hk j hj => not_mem_descendants_of_beside hs.sound_forest
          (hlater j hj) hk)
        (fun d hd => hbeside d (List.mem_cons_of_mem _ hd)) hp₁ fun d hd j hj => by
          refine (hfound d (List.mem_cons_of_mem _ hd) j hj).trans (hchanges.stands j ?_ ?_)
          · have hlt := Forest.lt_of_parent? (hparent d (List.mem_cons_of_mem _ hd))
            exact Nat.lt_of_lt_of_le (hj.lt_size hlt) hp.size
          · rintro ⟨k, hk, hkj⟩
            exact hapart j ⟨d, hd, hj⟩ (List.mem_singleton.mp hk ▸ hkj)
      refine ⟨calls ++ calls', r, p', ?_, ?_, hp', (hchanges.mono ?_).trans (hchanges'.mono ?_)⟩
      · rw [List.flatMap_cons]
        exact htoured.append htoured' fun k hk j hj => not_mem_descendants_of_beside
          hs.sound_forest (hlater j (List.mem_append_left _ hj)) hk
      · exact (attempt_bind_of_done (attempt_eq_ok hattempt)).trans hattempt'
      · rintro j ⟨k, hk, hj⟩
        exact ⟨k, List.mem_singleton.mp hk ▸ List.mem_cons_self, hj⟩
      · rintro j ⟨k, hk, hj⟩
        exact ⟨k, List.mem_cons_of_mem _ hk, hj⟩

/-- Nothing is left to visit below an element with texts in it. -/
theorem not_isElement_of_texts (htexts : ∀ c ∈ s.forest.children i, ∃ t, s.content? c = some (.text t))
    {k : Nat} (hk : s.forest.Above i k) : ¬s.IsElement k := by
  obtain ⟨c, hc, hck⟩ := hk.top
  obtain ⟨t, ht⟩ := htexts c ((hs.linked.iff i c).mpr hc)
  rcases hck with rfl | hck
  · rintro ⟨tag, as, hel⟩
    rw [ht] at hel
    cases hel
  · obtain ⟨d, hd⟩ := hck.exists_child
    have hmem := (hs.linked.iff c d).mpr hd
    rw [hs.leaf c _ ht rfl] at hmem
    cases hmem

/-- What is left of an element is compiled. -/
theorem compileBelow_tours {js : List Nat}
    (hahead : Ahead run regs s ks₀ p₀ (s.forest.descendants i ++ js) p)
    (hbeside : ∀ j ∈ js, ¬s.forest.Spans i j) (hp : Underway regs s p)
    (hremains : Remains s p.surface i) (hdepth : s.forest.children i ≠ [] → 0 < depth)
    (htours : ∀ c ∈ s.forest.children i, Tours run regs s ks₀ p₀ (compileNode run depth c) [c]) :
    ∃ calls r p', Toured run regs s (s.forest.descendants i) p calls r p' ∧
      (compileBelow run depth i).attempt p = .done r p' ∧ Underway regs s p' ∧
      ChangesIn (s.forest.Spans i) p.surface p'.surface := by
  rcases hremains with hintact | ⟨⟨t, ⟨tag, as, hel⟩, c, hchildren, hc⟩, hsome, htexts⟩
  · obtain ⟨tag, as, hel⟩ := hintact.element
    rw [Forest.descendants_eq hs.sound_forest] at hahead
    have hbelow : ∀ {c j}, c ∈ s.forest.children i → s.forest.Spans c j → s.forest.Above i j :=
      fun hc hj => hj.of_parent? ((hs.linked.iff i _).mp hc)
    obtain ⟨calls, r, p', htoured, hattempt, hp', hchanges⟩ := tours_children hs
      (hs.linked.nodup i) (fun _ hc => hc) htours p js hahead
      (fun c hc j hj hcj => hbeside j hj (.inr (hbelow hc hcj))) hp
      fun c hc j hj => hintact.below j (hbelow hc hj)
    rw [← Forest.descendants_eq hs.sound_forest] at htoured
    refine ⟨calls, r, p', htoured, ?_, hp', hchanges.mono ?_⟩
    · rw [← hattempt, ← hintact.children, Run.attempt, Run.attempt, compileBelow,
        askSurface_bind (children_of_content? hel)]
    · rintro j ⟨c, hc, hj⟩
      exact .inr (hbelow hc hj)
  · obtain ⟨d, rfl⟩ : ∃ d, depth = d + 1 := ⟨depth - 1, by have := hdepth hsome; omega⟩
    have hleaf : ¬p.surface.IsElement c := by
      rintro ⟨tag, as, hel⟩
      rw [hc] at hel
      cases hel
    have hchild : compileChild run (d + 1) i c p = .done () p := by
      rw [compileChild_of_mem hp.sound (hchildren ▸ List.mem_singleton_self c)]
      exact compileNode_of_not_element hc hleaf run d
    refine ⟨[], .ok (), p, .leaves (fun k hk => not_isElement_of_texts hs htexts
      ((Forest.mem_descendants_iff hs.sound_forest).mp hk)) p, attempt_of_done ?_, hp, .refl _ _⟩
    rw [compileBelow, askSurface_bind (children_of_content? hel), hchildren]
    exact bind_of_done hchild

/-- The walk at a node and below it is a tour, if it is deep enough. -/
theorem compileNode_tours
    (hrun : ∀ program p, Tracks (Change .all) (run program) (run program) p) (hi : i < s.size)
    (hdepth : s.size ≤ s.forest.depth i + depth)
    (hundisturbed : ∀ j ks q, Ahead run regs s ks₀ p₀ (j :: ks) q → s.IsElement j →
      Undisturbed run regs s j q) :
    Tours run regs s ks₀ p₀ (compileNode run depth i) [i] := by
  induction depth generalizing i with
  | zero => exact absurd (Forest.depth_lt_size hs.sound_forest hi) (Nat.not_lt.mpr hdepth)
  | succ depth ih =>
    intro p js hahead hbeside hp hfound
    rw [List.flatMap_singleton] at hahead ⊢
    have hfound : ∀ j, s.forest.Spans i j → Stands s p.surface j :=
      hfound i (List.mem_singleton_self i)
    by_cases hel : s.IsElement i
    · obtain ⟨calls, answer, p₁, hvisit, hp₁, hchanges, hgoes⟩ :=
        exists_visit hrun hs hel (hundisturbed i _ p hahead hel) hp hfound depth
      have hspans : ∀ j, s.forest.Spans i j → ∃ k ∈ [i], s.forest.Spans k j :=
        fun j hj => ⟨i, List.mem_singleton_self i, hj⟩
      cases hgoes with
      | failed hattempt =>
        exact ⟨calls, _, p₁, .failed hvisit, hattempt, hp₁, hchanges.mono hspans⟩
      | skip hattempt =>
        refine ⟨calls ++ [], _, p₁, .skip hvisit ?_, hattempt, hp₁, hchanges.mono hspans⟩
        rw [List.filter_eq_nil_iff.mpr fun k hk => by simpa using hk]
        exact .nil p₁
      | enter hattempt hremains =>
        have hchild : ∀ c ∈ s.forest.children i, s.forest.depth c = s.forest.depth i + 1 ∧
            c < s.size := fun c hc =>
          ⟨Forest.depth_of_parent? hs.sound_forest ((hs.linked.iff i c).mp hc),
            Forest.lt_of_parent? ((hs.linked.iff i c).mp hc)⟩
        have hpos : s.forest.children i ≠ [] → 0 < depth := by
          intro hne
          obtain ⟨c, hc⟩ := List.exists_mem_of_ne_nil _ hne
          obtain ⟨hbelow, hc⟩ := hchild c hc
          have hlt : s.forest.depth c < s.size := Forest.depth_lt_size hs.sound_forest hc
          omega
        obtain ⟨calls', r, p', htoured, hattempt', hp', hchanges'⟩ :=
          compileBelow_tours hs (hahead.enter hvisit) (hbeside i (List.mem_singleton_self i)) hp₁
            hremains hpos fun c hc => ih (hchild c hc).2 (by rw [(hchild c hc).1]; omega)
        exact ⟨calls ++ calls', r, p', .enter hvisit htoured, hattempt.trans hattempt', hp',
          (hchanges.trans hchanges').mono hspans⟩
    · have hself := hfound i (.inl rfl)
      obtain ⟨c, hc⟩ := exists_content?_of_lt hi
      have hleaf : ¬p.surface.IsElement i := fun h => hel (hself.isElement_iff.mp h)
      refine ⟨[], .ok (), p, .skip (.leaf hel) ?_, attempt_of_done
        (compileNode_of_not_element (hself.content.trans hc) hleaf run depth), hp, .refl _ _⟩
      rw [List.filter_eq_nil_iff.mpr fun k hk => by simpa using hk]
      exact .nil p

end

/-- The element at a mount of a page is compiled. Wherever a tour of it and of all below it comes to
an element, the handler and the interpolation there leave the surface alone, and where a whole content
is an interpolation, it is text and is bound without an error. Then the compilation comes to an end,
and it is this tour, in document order: it calls those elements to which a directive applies, each for
the first directive whose attribute is there and not blank and by the handler that came last, and it
takes away this attribute and nothing else. It passes over what is below a call that has taken care
of it, and stops with the first error of a handler. -/
theorem compile_in_order {n : Nat} {mount : Mount} (hreached : p.surface.Reached)
    (hregs : p.registry = Registry.ofList regs) (hmount : Finds p.surface i mount)
    (hi : p.surface.IsElement i) (hdepth : p.surface.size ≤ depth)
    (hundisturbed : ∀ j ks q, Ahead (interpret n) regs p.surface
      (i :: p.surface.forest.descendants i) p (j :: ks) q → p.surface.IsElement j →
      Undisturbed (interpret n) regs p.surface j q) :
    ∃ calls r p', (compile (interpret n) depth mount).attempt p = .done r p' ∧
      Toured (interpret n) regs p.surface (i :: p.surface.forest.descendants i) p calls r p' ∧
      Compiled regs p.surface i calls r p'.surface := by
  have hs := wellFormed_of_reached hreached
  have hahead : Ahead (interpret n) regs p.surface (i :: p.surface.forest.descendants i) p
    (i :: p.surface.forest.descendants i) p := .start
  obtain ⟨calls, r, p', htoured, hattempt, -, -⟩ := compileNode_tours hs
    (tracks_interpret (Nat.le_refl n)) hi.lt
    (Nat.le_trans hdepth (Nat.le_add_left _ _)) hundisturbed p []
    (by rwa [List.flatMap_singleton, List.append_nil]) (fun _ _ _ hj => absurd hj List.not_mem_nil)
    ⟨hregs, hs.toSound, Nat.le_refl _⟩ fun _ _ j _ => .refl _ j
  rw [List.flatMap_singleton] at htoured
  rw [Run.attempt, ← compile_of_finds hmount, ← Run.attempt] at hattempt
  exact ⟨calls, r, p', hattempt, htoured, htoured.compiled hs⟩

/-! ## A board -/

/-- A document with a content that is interpolated, a list, and an element with two attributes. -/
def boardMarkup : String :=
  "<div id=app><p>\x7b\x7b f() \x7d\x7d</p><ul vm-a=x><li vm-a=y></li></ul>" ++
    "<b id=b vm-b=z vm-a=w></b></div>"

/-- The document as a surface. -/
def boardSurface : Surface (Listener (List Nat)) where
  forest.nodes := #[
    ⟨⟨.document, []⟩, none, [1]⟩,
    ⟨⟨.element "div" [("id", "app")], []⟩, some 0, [2, 4, 6]⟩,
    ⟨⟨.element "p" [], []⟩, some 1, [3]⟩,
    ⟨⟨.text "\x7b\x7b f() \x7d\x7d", []⟩, some 2, []⟩,
    ⟨⟨.element "ul" [("vm-a", "x")], []⟩, some 1, [5]⟩,
    ⟨⟨.element "li" [("vm-a", "y")], []⟩, some 4, []⟩,
    ⟨⟨.element "b" [("id", "b"), ("vm-b", "z"), ("vm-a", "w")], []⟩, some 1, []⟩]

theorem ofMarkup_boardMarkup : ofMarkup boardMarkup = .ok boardSurface := by
  have hread : Markup.read boardMarkup = .ok [.element "div" [("id", "app")] [
      .element "p" [] [.text "\x7b\x7b f() \x7d\x7d"],
      .element "ul" [("vm-a", "x")] [.element "li" [("vm-a", "y")] []],
      .element "b" [("id", "b"), ("vm-b", "z"), ("vm-a", "w")] []]] :=
    eq_ok_of_toOption (by decide +kernel)
  simp [ofMarkup, Surface.load, parseFragment, hread, Except.map, insertAll, Surface.insert,
    insertUnder, blank, Surface.push, Surface.attach, Surface.size, Surface.append,
    Surface.content?, Forest.push, Forest.empty, Forest.size, Forest.attach, Forest.detach,
    Forest.parent?, Forest.node?, Forest.content?, Forest.mapChildren, Forest.setParent,
    Forest.isAtOrAbove, Forest.ancestors, Array.modify, Array.modifyM, document, boardSurface]
  rfl

/-- A handler that notes the element in the host state. -/
def noting (goesOn : Bool) : Handler (List Nat) :=
  .custom fun node _ => .update (· ++ [node]) (.done (.bool goesOn))

/-- The board with a method and with directives. -/
def boardPage (f : Program (List Nat)) (regs : List (String × Handler (List Nat))) :
    Page (List Nat) :=
  assemble ⟨.record [], [("f", f)], [], []⟩ (Registry.ofList regs) [] boardSurface []

/-- The one content of the board that is interpolated. -/
theorem interpolation?_boardSurface {j : Nat} {source : String} (hj : boardSurface.IsElement j)
    (h : boardSurface.interpolation? j = some source) : j = 2 ∧ source = "f()" := by
  have hmem : j ∈ [0, 1, 2, 3, 4, 5, 6] := List.mem_range.mpr hj.lt
  have hall : ∀ j ∈ [0, 1, 2, 3, 4, 5, 6], boardSurface.interpolation? j = none ∨
      j = 2 ∧ boardSurface.interpolation? j = some "f()" := by decide +kernel
  rcases hall j hmem with hnone | ⟨htwo, hsome⟩
  · rw [hnone] at h
    cases h
  · exact ⟨htwo, Option.some.inj (h.symm.trans hsome)⟩

theorem texts_boardSurface : ∀ c ∈ boardSurface.forest.children 2,
    ∃ t, boardSurface.content? c = some (.text t) := by
  intro c hc
  cases List.mem_singleton.mp hc
  exact ⟨_, rfl⟩

/-- The board whose method compiles its last element. -/
def eagerPage : Page (List Nat) :=
  boardPage (.tell (.compile (.selector "#b")) fun _ => .done .null) [("vm-a", noting true)]

def eagerCompiled : Page (List Nat) :=
  (compile (interpret 8) 7 (.node 1) eagerPage).stateD eagerPage

/-- If what is interpolated may change the surface, elements need not be called in order, though the
handlers leave the surface alone and nothing fails. -/
theorem compile_out_of_order : ¬∀ (p p' : Page (List Nat)) (i n depth : Nat), p.surface.Reached →
    p.surface.IsElement i → p.registry = Registry.ofList [("vm-a", noting true)] →
    (∀ j source, p.surface.Inside i j → p.surface.interpolation? j = some source →
      (∀ c ∈ p.surface.forest.children j, ∃ t, p.surface.content? c = some (.text t)) ∧
      ∃ q, bind (interpret n) j source ⟨.content, none, false, .page⟩ p = .done () q) →
    compile (interpret n) depth (.node i) p = .done () p' →
    p'.host = p.host ++ (i :: p.surface.forest.descendants i).filter fun j =>
      (p.surface.marked? j "vm-a").isSome := by
  intro h
  have hruns : (compile (interpret 8) 7 (.node 1) eagerPage).isDone ∧
      (bind (interpret 8) 2 "f()" ⟨.content, none, false, .page⟩ eagerPage).isDone ∧
      eagerCompiled.host = [6, 4, 5] := by decide +kernel
  obtain ⟨hdone, hbind, hhost⟩ := hruns
  have horder := h eagerPage eagerCompiled 1 8 7 (reached_of_ofMarkup ofMarkup_boardMarkup)
    ⟨"div", [("id", "app")], rfl⟩ rfl (fun j source hj hsource => by
      obtain ⟨rfl, rfl⟩ := interpolation?_boardSurface hj.isElement.2 hsource
      exact ⟨texts_boardSurface, _, Outcome.eq_done hbind eagerPage⟩)
    (Outcome.eq_done hdone eagerPage)
  rw [hhost] at horder
  exact absurd horder (by decide +kernel)

/-- The directives of the board, one of them registered twice. -/
def boardDirectives : List (String × Handler (List Nat)) :=
  [("vm-b", noting true), ("vm-a", noting true), ("VM-A", noting false)]

theorem exists_noting {j : Nat} {name : String} {handler : Handler (List Nat)} {text : String}
    (h : Chosen boardDirectives boardSurface j name handler text) : ∃ b, handler = noting b := by
  obtain ⟨d, hd, rfl⟩ := Option.map_eq_some_iff.mp h.last
  have hmem : d ∈ boardDirectives := List.mem_reverse.mp (List.mem_of_find?_eq_some hd)
  simp only [boardDirectives, List.mem_cons, List.not_mem_nil, or_false] at hmem
  rcases hmem with rfl | rfl | rfl
  · exact ⟨true, rfl⟩
  · exact ⟨true, rfl⟩
  · exact ⟨false, rfl⟩

/-- A page on the way through the board. -/
structure OnBoard (p : Page (List Nat)) : Prop where
  reached : p.surface.Reached
  element : p.surface.IsElement 2
  method : p.methods "f" = some (.done (.text "x"))

theorem OnBoard.later {p p' : Page (List Nat)} (hp : OnBoard p)
    (h : ReflTransGen (Change .all) p p') : OnBoard p' where
  reached := (surface_of_changes h hp.reached).1
  element := (surface_of_changes h hp.reached).2 2 hp.element
  method := keeps_of_steps (I := fun q : Page (List Nat) => q.methods "f" = some (.done (.text "x")))
    (fun q q' (hstep : Change .all q q') hq => hstep.computed_methods.2 ▸ hq) hp.method h

theorem read_call : Expression.read (Text.trimmed "f()") = .ok ⟨"f()", "f", [], true⟩ :=
  eq_ok_of_toOption (by decide +kernel)

theorem OnBoard.evaluateExpression {p : Page (List Nat)} (hp : OnBoard p) :
    Expression.evaluate (names (interpret 8) .page) ⟨"f()", "f", [], true⟩ p
      = .done (.text "x") p := by
  have hlook : Run.look (fun p : Page (List Nat) => p.methods "f") p
      = .done (some (.done (.text "x"))) p := by rw [Run.look, hp.method]
  exact bind_of_done hlook

theorem OnBoard.evaluate {p : Page (List Nat)} (hp : OnBoard p) :
    Page.evaluate (interpret 8) (Text.trimmed "f()") .page p = .done (.text "x") p := by
  unfold Page.evaluate
  rw [read_call]
  exact hp.evaluateExpression

theorem OnBoard.bind {p : Page (List Nat)} (hp : OnBoard p) : ∃ p',
    Page.bind (interpret 8) 2 "f()" ⟨.content, none, false, .page⟩ p = .done () p' := by
  obtain ⟨surface, hset, -⟩ :=
    setText_changesIn (wellFormed_of_reached hp.reached).toSound hp.element "x"
  have hedit : editSurface (.setText 2 "x") p = .done () { p with surface } := editSurface_done hset
  refine ⟨{ p with surface }, ?_⟩
  unfold Page.bind
  rw [read_call]
  exact bind_of_done ((bind_of_done hp.evaluateExpression).trans hedit)

theorem OnBoard.undisturbed {p : Page (List Nat)} (hp : OnBoard p) {j : Nat}
    (hj : boardSurface.IsElement j) :
    Undisturbed (interpret 8) boardDirectives boardSurface j p where
  handles name handler text hchosen q hremove depth := by
    obtain ⟨b, rfl⟩ := exists_noting hchosen
    cases b <;> exact .refl _
  texts source hsource := by
    obtain ⟨rfl, -⟩ := interpolation?_boardSurface hj hsource
    exact texts_boardSurface
  binds source hsource cs q hdirected := by
    obtain ⟨rfl, rfl⟩ := interpolation?_boardSurface hj hsource
    exact (hp.later (hdirected.changes (tracks_interpret (Nat.le_refl 8)))).bind
  evaluates source hsource cs q hdirected v p' h := by
    obtain ⟨rfl, rfl⟩ := interpolation?_boardSurface hj hsource
    have hq := hp.later (hdirected.changes (tracks_interpret (Nat.le_refl 8)))
    cases h.symm.trans hq.evaluate
    exact .refl _

/-- The board whose method only answers. -/
def calmPage : Page (List Nat) := boardPage (.done (.text "x")) boardDirectives

def calmCompiled : Page (List Nat) :=
  (compile (interpret 8) 7 (.selector "#app") calmPage).stateD calmPage

/-- The list is called by the handler that came last, which has the item passed over, and the last
element for the directive that came first. -/
theorem compile_in_order_board : ∃ calls,
    (compile (interpret 8) 7 (.selector "#app")).attempt calmPage
      = .done (.ok ()) calmCompiled ∧
    Toured (interpret 8) boardDirectives boardSurface (1 :: boardSurface.forest.descendants 1)
      calmPage calls (.ok ()) calmCompiled ∧
    Compiled boardDirectives boardSurface 1 calls (.ok ()) calmCompiled.surface ∧
    calmCompiled.host = [4, 6] := by
  have hruns : (compile (interpret 8) 7 (.selector "#app") calmPage).isDone ∧
      calmCompiled.host = [4, 6] := by decide +kernel
  have hfinds : Finds boardSurface 1 (.selector "#app") := eq_ok_of_toOption (by decide +kernel)
  have hreached : boardSurface.Reached := reached_of_ofMarkup ofMarkup_boardMarkup
  have hcalm : OnBoard calmPage := ⟨hreached, ⟨"p", [], rfl⟩, rfl⟩
  obtain ⟨calls, r, p', hattempt, htoured, hcompiled⟩ := compile_in_order (p := calmPage)
    (n := 8) hreached rfl hfinds ⟨"div", [("id", "app")], rfl⟩ (show boardSurface.size ≤ 7 by decide)
    fun j ks q hahead hj =>
      (hcalm.later (hahead.changes (tracks_interpret (Nat.le_refl 8)))).undisturbed hj
  have hdone := attempt_of_done (Outcome.eq_done hruns.1 calmPage)
  cases hattempt.symm.trans hdone
  exact ⟨calls, hdone, htoured, hcompiled, hruns.2⟩

end Page

end ReactiveView
