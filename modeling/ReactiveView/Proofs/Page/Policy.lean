import ReactiveView.Proofs.Page.Change
/-!
# Runs under a policy

A policy says which commands a program may give, page by page. The run of a program under a policy
is its run as long as every command is one that the policy admits, those of the programs included
that it sets off on the way; at the first other command it is exhausted. So a run under a policy
that ends is a run in which the policy was obeyed (`tracks_interpretUnder`), and under the policy
that admits everything it is just the run (`interpretUnder_true`).

Results:
* `interpret_mono`: a run that ends does not depend on the depth it is given.
* `Reached.keeps`: what single changes keep holds of every page that obedient runs lead to.
-/
namespace ReactiveView.Page

open Relation Run

variable {σ : Type} {rules : Rules σ} {p p' : Page σ}

/-- Which commands there may be, on which page. -/
abbrev Policy (σ : Type) := Page σ → Command → Bool

/-- A program run on a page as long as it obeys a policy, given what runs the programs that it sets
off. -/
def execUnder (policy : Policy σ) (run : Program σ → Run (Page σ) Value) (depth : Nat) :
    Program σ → Run (Page σ) Value
  | .done v => pure v
  | .fail e => Run.fail e
  | .look next => fun p => execUnder policy run depth (next p.view) p
  | .update change next => fun p =>
    execUnder policy run depth next { p with host := change p.host }
  | .act c next => do
    if ← Run.look fun p => policy p c then
      let r ← (perform run depth c).attempt
      execUnder policy run depth (next r)
    else Run.exhausted
  | .observe id watcher next => do
    let r ← Run.attempt (onGraph fun g => g.settle (g.observe id (.watcher watcher)))
    execUnder policy run depth (next r)
  | .listen node event listener next => do
    let r ← Run.attempt (onSurface fun s => s.settle (s.listen node event (.script listener)))
    execUnder policy run depth (next r)

/-- A program run on a page at a depth, as long as it and all that it sets off obey a policy. -/
def interpretUnder (policy : Policy σ) : (depth : Nat) → Program σ → Run (Page σ) Value
  | 0, _ => Run.exhausted
  | depth + 1, program => execUnder policy (interpretUnder policy depth) depth program

/-- A policy that admits only what the rules allow. -/
def Policy.Enforces (policy : Policy σ) (rules : Rules σ) : Prop :=
  ∀ p c, policy p c → Command.Allowed rules p c

/-- The program, and all that it sets off, obeys the policy when it runs on a page. -/
def Obeys (policy : Policy σ) (depth : Nat) (program : Program σ) (p : Page σ) : Prop :=
  interpretUnder policy depth program p ≠ .exhausted

theorem tracks_execUnder {policy policy' : Policy σ} (henforces : policy.Enforces rules)
    (hle : ∀ p c, policy p c → policy' p c) {run run' : Program σ → Run (Page σ) Value}
    (hrun : ∀ program p, Tracks (Change rules) (run program) (run' program) p)
    {depth depth' : Nat} (hd : depth ≤ depth') (program : Program σ) (p : Page σ) :
    Tracks (Change rules) (execUnder policy run depth program)
      (execUnder policy' run' depth' program) p := by
  induction program generalizing p with
  | done v => exact tracks_pure v
  | fail e => exact tracks_fail e
  | look next ih =>
    have h := ih p.view p
    exact ⟨fun hx => h.done hx, fun hx => h.failed hx⟩
  | update change next ih =>
    have h := ih { p with host := change p.host }
    have hstep : Change rules p { p with host := change p.host } := .host p _
    exact ⟨fun hx => ⟨(h.done hx).1, .head hstep (h.done hx).2⟩,
      fun hx => ⟨(h.failed hx).1, .head hstep (h.failed hx).2⟩⟩
  | act c next ih =>
    rw [execUnder, execUnder]
    refine tracks_look_bind ?_
    by_cases hc : policy p c
    · rw [if_pos hc, if_pos (hle p c hc)]
      exact (tracks_perform hrun hd (henforces p c hc)).attempt.bind fun r p' _ _ => ih r p'
    · rw [if_neg hc]
      exact tracks_exhausted _
  | observe id watcher next _ ih =>
    exact (tracks_observe id _).attempt.bind fun r p' _ _ => ih r p'
  | listen node event listener next _ ih =>
    exact (tracks_listen node event _).attempt.bind fun r p' _ _ => ih r p'

/-- Under a stricter policy and at a smaller depth, a run that ends is the same run. -/
theorem tracks_interpretUnder {policy policy' : Policy σ} (henforces : policy.Enforces rules)
    (hle : ∀ p c, policy p c → policy' p c) {depth depth' : Nat} (hd : depth ≤ depth')
    (program : Program σ) (p : Page σ) : Tracks (Change rules)
      (interpretUnder policy depth program) (interpretUnder policy' depth' program) p := by
  induction depth generalizing depth' program p with
  | zero => exact tracks_exhausted _
  | succ depth ih =>
    obtain ⟨d, rfl⟩ : ∃ d, depth' = d + 1 := ⟨depth' - 1, by omega⟩
    exact tracks_execUnder henforces hle (fun program p => ih (by omega) program p) (by omega)
      program p

theorem execUnder_true (run : Program σ → Run (Page σ) Value) (depth : Nat) (program : Program σ) :
    execUnder (fun _ _ => true) run depth program = exec run depth program := by
  induction program with
  | done v => rfl
  | fail e => rfl
  | look next ih => funext p; exact congrFun (ih p.view) p
  | update change next ih => funext p; exact congrFun ih _
  | act c next ih => exact congrArg (Run.andThen _) (funext ih)
  | observe id watcher next _ ih => exact congrArg (Run.andThen _) (funext ih)
  | listen node event listener next _ ih => exact congrArg (Run.andThen _) (funext ih)

/-- Under the policy that admits everything, a run is what it is without one. -/
theorem interpretUnder_true (depth : Nat) (program : Program σ) :
    interpretUnder (fun _ _ => true) depth program = interpret depth program := by
  induction depth generalizing program with
  | zero => rfl
  | succ depth ih =>
    have : interpretUnder (fun _ _ => true) depth = interpret (σ := σ) depth := funext ih
    rw [interpretUnder, this, execUnder_true]
    rfl

/-- A run under a policy makes changes under the rules only. -/
theorem tracks_interpretUnder_self {policy : Policy σ} (henforces : policy.Enforces rules)
    (depth : Nat) (program : Program σ) (p : Page σ) : Tracks (Change rules)
      (interpretUnder policy depth program) (interpretUnder policy depth program) p :=
  tracks_interpretUnder henforces (fun _ _ h => h) (Nat.le_refl depth) program p

/-- A run under a policy that ends is the run itself. -/
theorem tracks_interpretUnder_interpret {policy : Policy σ} (henforces : policy.Enforces rules)
    (depth : Nat) (program : Program σ) (p : Page σ) : Tracks (Change rules)
      (interpretUnder policy depth program) (interpret depth program) p := by
  rw [← interpretUnder_true]
  exact tracks_interpretUnder henforces (fun _ _ _ => rfl) (Nat.le_refl depth) program p

/-- A run that obeys a policy is the run itself. -/
theorem Obeys.eq {policy : Policy σ} (henforces : policy.Enforces rules) {depth : Nat}
    {program : Program σ} (h : Obeys policy depth program p) :
    interpretUnder policy depth program p = interpret depth program p :=
  (tracks_interpretUnder_interpret henforces depth program p).eq_of_ne_exhausted h

/-- Everything is allowed. -/
def Rules.all : Rules σ where
  write _ _ _ := True
  graph _ := True

/-- If everything may be written, everything may be written back. -/
theorem Listener.allowed (hwrite : ∀ p path x, rules.write p path x) (l : Listener σ) :
    Listener.Allowed rules l := by
  cases l with
  | writeBack target e scope =>
    cases scope with
    | page => exact fun p t _ => hwrite p e.path (.text t)
    | plain name => trivial
  | script f => trivial

/-- If everything may be written, only edits of the graph and new nodes can be forbidden. -/
theorem Command.allowed (hwrite : ∀ p path x, rules.write p path x) (p : Page σ) {c : Command}
    (hgraph : ∀ e, c = .graph e → rules.graph e) (hgrow : ∀ source, c = .grow source → rules.grow) :
    Command.Allowed rules p c := by
  cases c with
  | graph e => exact hgraph e rfl
  | grow source => exact hgrow source rfl
  | write path x => exact hwrite p path x
  | assign path x => exact fun _ => hwrite p path x
  | set source x => exact fun e _ _ => hwrite p e.path x
  | dispatch node event value => exact fun _ _ l _ => Listener.allowed hwrite l
  | _ => trivial

theorem tracks_interpret {depth depth' : Nat} (hd : depth ≤ depth') (program : Program σ)
    (p : Page σ) :
    Tracks (Change .all) (interpret depth program) (interpret depth' program) p := by
  have henforces : Policy.Enforces (fun _ _ => true : Policy σ) .all := fun p c _ =>
    Command.allowed (fun _ _ _ => trivial) p (fun _ _ => trivial) fun _ _ => trivial
  have htracks := tracks_interpretUnder henforces (fun _ _ h => h) hd program p
  rwa [interpretUnder_true, interpretUnder_true] at htracks

/-- A run that ends does not depend on the depth that it is given. -/
theorem interpret_mono {depth depth' : Nat} (hd : depth ≤ depth') {program : Program σ}
    (h : interpret depth program p ≠ .exhausted) :
    interpret depth' program p = interpret depth program p := by
  exact ((tracks_interpret hd program p).eq_of_ne_exhausted h).symm

/-- A run that obeys a policy makes changes under the rules only, and may fail in between. -/
theorem Obeys.changes {policy : Policy σ} (henforces : policy.Enforces rules) {depth : Nat}
    {program : Program σ} (hobeys : Obeys policy depth program p)
    (hrun : (∃ v, interpret depth program p = .done v p') ∨
      ∃ e, interpret depth program p = .failed e p') : ReflTransGen (Change rules) p p' := by
  have htracks := tracks_interpretUnder_self henforces depth program p
  rw [← hobeys.eq henforces] at hrun
  rcases hrun with ⟨v, hdone⟩ | ⟨e, hfailed⟩
  · exact (htracks.done hdone).2
  · exact (htracks.failed hfailed).2

/-! ## Pages that can come about -/

/-- The pages that programs lead to which obey a policy, from the page that is assembled from
options. Failures count as much as successes. -/
inductive Reached (policy : Policy σ) (options : Options σ) : Page σ → Prop
  | start (registry : Registry σ) (scopes : Entries Value) {surface : Surface (Listener σ)}
      (hs : surface.Reached) (host : σ) :
      Reached policy options (assemble options registry scopes surface host)
  | done {p p' : Page σ} {depth : Nat} {program : Program σ} {v : Value}
      (h : Reached policy options p) (hobeys : Obeys policy depth program p)
      (hrun : interpret depth program p = .done v p') : Reached policy options p'
  | failed {p p' : Page σ} {depth : Nat} {program : Program σ} {e : Error}
      (h : Reached policy options p) (hobeys : Obeys policy depth program p)
      (hrun : interpret depth program p = .failed e p') : Reached policy options p'
  | close {p : Page σ} (h : Reached policy options p) : Reached policy options p.close

/-- What holds at the start and is kept by single changes and by closing holds of every page that
can come about. -/
theorem Reached.keeps {policy : Policy σ} {options : Options σ} {I : Page σ → Prop}
    (henforces : policy.Enforces rules)
    (hstart : ∀ (registry : Registry σ) (scopes : Entries Value) (surface : Surface (Listener σ))
      (host : σ), surface.Reached → I (assemble options registry scopes surface host))
    (hchange : ∀ p p', Change rules p p' → I p → I p') (hclose : ∀ p, I p → I p.close)
    (h : Reached policy options p) : I p := by
  induction h with
  | start registry scopes hs host => exact hstart registry scopes _ host hs
  | done _ hobeys hrun ih =>
    exact keeps_of_steps hchange ih (hobeys.changes henforces (.inl ⟨_, hrun⟩))
  | failed _ hobeys hrun ih =>
    exact keeps_of_steps hchange ih (hobeys.changes henforces (.inr ⟨_, hrun⟩))
  | close _ ih => exact hclose _ ih

/-! ## The page at the start -/

/-- What holds of the graph of the data, and is kept by the computed nodes and the watchers, holds
of the graph of the page at the start. -/
theorem assemble_graph {J : Graph (Observer σ) → Prop} {options : Options σ}
    (hdata : J (Graph.ofData options.data))
    (hinsert : ∀ g, ∀ name ∈ Entries.keys options.computed, J g → J (g.insertComputed name).2)
    (hobserve : ∀ g g' id, ∀ w ∈ options.watches,
      Graph.observe g id (.watcher w.2) = .ok g' → J g → J g')
    (registry : Registry σ) (scopes : Entries Value) (surface : Surface (Listener σ)) (host : σ) :
    J (assemble options registry scopes surface host).graph := by
  have hnodes : J (options.computed.foldl (fun g c => (g.insertComputed c.1).2)
      (Graph.ofData options.data)) :=
    List.foldlRecOn _ _ hdata fun g hg c hc => hinsert g c.1 (List.mem_map_of_mem hc) hg
  unfold assemble
  refine List.foldlRecOn _ _ hnodes fun g hg w hw => ?_
  split
  · exact hg
  · next id _ =>
    cases ho : g.observe id (.watcher w.2) with
    | ok g' => exact hobserve g g' id w hw ho hg
    | error e => exact hg

end ReactiveView.Page
