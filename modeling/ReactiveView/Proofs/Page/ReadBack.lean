import ReactiveView.Proofs.Page.Accessors
import ReactiveView.Proofs.Page.Setting
import ReactiveView.Proofs.Value.Refused
/-!
# What was set is read

A set goes along the whole path of an expression, while a read looks the head up by name and goes
on from there. In a data tree the two lead to the same place, since a name is never an index. A page
reads names from its data first, and a set does not get past the guard for what is read-only, so on
a page they lead to the same place, too. Between the set and the read come the observers. They may
call what they like and register observers that are called later; what was set is read all the same
as long as none of them writes.

Results:
* `Unwriting.ends_write`: a write hands the page over with the value in its place, where it stays.
* `Serves.unwriting`: observers and computed properties that spare the page do not write.
* `read_back`: what is read after a set, from a data tree and from a page.
-/
namespace ReactiveView.Page

open ReactiveView.Graph Run

variable {σ : Type} {p q r : Page σ} {depth : Nat} {x : Value}

/-- The pages that come about from a page by writes, by calls of observers and by runs of computed
properties, in any order. An observer that is on one such page can be called on all of them. -/
inductive Stirred (depth : Nat) (p : Page σ) : Page σ → Prop
  | start : Stirred depth p p
  | write {q : Page σ} {path : Path} {x old data : Value} (hq : Stirred depth p q)
      (hid : q.graph.resolve path = none) (hset : q.data.set path x = .ok (old, data)) :
      Stirred depth p { q with data }
  | record {q q' : Page σ} {path : Path} {x : Value} {id : Nat} (hq : Stirred depth p q)
      (hid : q.graph.resolve path = some id) (h : Written q path x id q') : Stirred depth p q'
  | observer {q q' r : Page σ} {i : Nat} {o : Observer σ} {current previous : Value}
      {answer : Except Error Unit} (hq : Stirred depth p q) (hr : Stirred depth p r)
      (ho : o ∈ r.graph.observers i)
      (h : (callObserver (interpret depth) o current previous).attempt q = .done answer q') :
      Stirred depth p q'
  | computed {q q' : Page σ} {name : String} {program : Program σ} {answer : Except Error Value}
      (hq : Stirred depth p q) (hname : q.computed name = some program)
      (h : (interpret depth program).attempt q = .done answer q') : Stirred depth p q'

/-- The observers and the computed properties of a page do not write: wherever they run, and whether
they fail or not, they leave the data as they find it. -/
structure Unwriting (depth : Nat) (p : Page σ) : Prop where
  observer : ∀ q r, Stirred depth p q → Stirred depth p r → ∀ i, ∀ o ∈ r.graph.observers i,
    ∀ current previous answer q',
      (callObserver (interpret depth) o current previous).attempt q = .done answer q' →
      q'.data = q.data
  computed : ∀ q, Stirred depth p q → ∀ name program, q.computed name = some program →
    ∀ answer q', (interpret depth program).attempt q = .done answer q' → q'.data = q.data

theorem Stirred.trans (h : Stirred depth p q) (h' : Stirred depth q r) : Stirred depth p r := by
  induction h' with
  | start => exact h
  | write _ hid hset ih => exact .write ih hid hset
  | record _ hid hwritten ih => exact .record ih hid hwritten
  | observer _ _ ho hrun ihq ihr => exact .observer ihq ihr ho hrun
  | computed _ hname hrun ih => exact .computed ih hname hrun

/-- A page that does not write does not begin to. -/
theorem Unwriting.of_stirred (hp : Unwriting depth p) (h : Stirred depth p q) :
    Unwriting depth q where
  observer _ _ hq hr := hp.observer _ _ (h.trans hq) (h.trans hr)
  computed _ hq := hp.computed _ (h.trans hq)

/-! ## Cascades without writes -/

/-- Whatever a cascade calls, the data stays. -/
theorem Unwriting.keeps (hp : Unwriting depth p) (data : Value) :
    (cascade (interpret depth)).Keeps (fun q => Stirred depth p q ∧ q.data = data)
      (fun o => ∃ r i, Stirred depth p r ∧ o ∈ r.graph.observers i) True where
  observers q hq i property hproperty o ho := by
    have hproperty : q.graph.property i = .ok property := hproperty
    refine ⟨q, i, hq.1, ?_⟩
    rw [Graph.observers, property_eq_ok.mp hproperty]
    exact ho
  value q hq source := by
    refine ends_valueOf (fun name program hname => ?_) hq source
    refine ends_of_attempt fun answer q' hrun => ⟨.computed hq.1 hname hrun, ?_⟩
    rw [hp.computed q hq.1 name program hname answer q' hrun, hq.2]
  call q hq o ho current previous := by
    obtain ⟨r, i, hr, ho⟩ := ho
    refine ends_of_attempt fun answer q' hrun => ⟨.observer hq.1 hr ho hrun, ?_⟩
    rw [hp.observer q r hq.1 hr i o ho current previous answer q' hrun, hq.2]

/-- A write below the root puts the value in its place, and there it stays, whether the write is
done or an observer fails. -/
theorem Unwriting.ends_write (hp : Unwriting depth p) {s : Segment} {rest : Path} {old data : Value}
    (hset : p.data.set (s :: rest) x = .ok (old, data)) :
    (write (interpret depth) depth (s :: rest) x p).Ends
      (fun q => Stirred depth p q ∧ q.data = data) (fun q => Stirred depth p q ∧ q.data = data)
      True := by
  cases hid : p.graph.resolve (s :: rest) with
  | none =>
    rw [write_of_unresolved hset hid]
    exact ⟨.write .start hid hset, rfl⟩
  | some id =>
    obtain ⟨graph, hgraph⟩ : ∃ graph, p.graph.setPrevious id old = .ok graph :=
      ⟨_, if_pos (contains_of_resolve_cons hid)⟩
    have hstirred : Stirred depth p { p with data, graph } :=
      .record .start hid ⟨old, data, graph, hset, hgraph, rfl⟩
    rw [write_of_resolved hset hid hgraph]
    exact ends_bind_pure ((hp.keeps data).notifyAll ⟨hstirred, rfl⟩ depth id) (some id)

/-! ## Pages that do not write -/

section

variable {R : Page σ → Page σ → Prop} {E : Prop}

/-- A page that is spared has the same observers and programs whatever happens to it. -/
theorem Serves.kin (hR : Mild R) (hs : Serves R E depth p) (hp : p.graph.Sound)
    (hq : Stirred depth p q) : Kin p q := by
  induction hq with
  | start => exact ⟨hp, fun _ => rfl, rfl, rfl, rfl, rfl⟩
  | write _ _ _ ih => exact { ih with }
  | record _ _ hwritten ih =>
    obtain ⟨old, data, graph, -, hgraph, rfl⟩ := hwritten
    exact { ih with
      sound := (sameShape_setPrevious hgraph).sound ih.sound
      observers := fun i => (observers_setPrevious hgraph i).trans (ih.observers i) }
  | observer _ _ ho hrun ihq ihr =>
    -- the observer may have been found on another page, but no page has others than `p`
    have ho := ihr.observers _ ▸ ho
    exact (of_attempt_of_ends (hs.ends_observer hR (hR.refl _) ihq ho _ _) hrun).2
  | computed _ hname hrun ih =>
    exact (of_attempt_of_ends (hs.ends_computed hR (hR.refl _) ih hname) hrun).2

/-- Observers and computed properties that spare the page do not write. They register no observers,
so all there will be are those of the page. -/
theorem Serves.unwriting (hR : Mild R) (hs : Serves R E depth p) (hp : p.graph.Sound) :
    Unwriting depth p where
  observer q r hq hr i o ho current previous answer q' hrun := by
    have ho := (hs.kin hR hp hr).observers i ▸ ho
    have hends := hs.ends_observer hR (hR.refl q) (hs.kin hR hp hq) ho current previous
    exact (hR.spares _ _ (of_attempt_of_ends hends hrun).1).data
  computed q hq name program hname answer q' hrun := by
    have hends := hs.ends_computed hR (hR.refl q) (hs.kin hR hp hq) hname
    exact (hR.spares _ _ (of_attempt_of_ends hends hrun).1).data

end

/-! ## Reading what was set -/

/-- The target of an expression that is no call is its path. -/
theorem assign_of_not_call {S : Type} {e : Expression} (hcall : e.isCall = false) (scope : Scope S)
    (x : Value) : e.assign scope x = scope.assign e.path x := by
  have htarget : e.target = .ok e.path := by simp [Expression.target, hcall]
  rw [Expression.assign, htarget]
  rfl

/-- A set is refused without a change, or the value is read once the observers have been called. -/
theorem Unwriting.ends_set (hp : Unwriting depth p) {source : String} {e : Expression}
    (hread : Expression.read source = .ok e) (hcall : e.isCall = false) (x : Value) :
    (set (interpret depth) depth source x p).Ends
      (fun q => Stirred depth p q ∧ ∀ run, evaluate run source .page q = .done x q)
      (fun q => Stirred depth p q ∧ (q = p ∨ ∀ run, evaluate run source .page q = .done x q))
      True := by
  rcases set_cases p source x with ⟨err, -, hrefused⟩ | ⟨-, e', old, data, hread', hset, hwrite⟩
  · rw [hrefused]
    exact ⟨.start, .inl rfl⟩
  · rw [hread] at hread'
    cases hread'
    have hat : data.at? e.path = some x := (Value.at?_setFrom hset).1
    have hreads : ∀ q : Page σ, q.data = data → ∀ run, evaluate run source .page q = .done x q :=
      fun q hq run => evaluate_of_at? hread hcall (hq ▸ hat) run
    rw [hwrite]
    exact ends_bind_pure ((hp.ends_write hset).imp (fun q hq => ⟨hq.1, hreads q hq.2⟩)
      (fun q hq => ⟨hq.1, .inr (hreads q hq.2)⟩) fun h => h) ()

/-- An expression that is no call reads a data tree at its path, and what is absent is null. A set
of it is the write to the path, and fails as that does, with the data as it was; so what was set is
read. It is read from a page as well, as long as the observers and the computed properties of the
page do not write, and then they do not afterwards either. A set of the page that fails has changed
nothing, or an observer has failed and the value is in its place. -/
theorem read_back {source : String} {e : Expression} (hread : Expression.read source = .ok e)
    (hcall : e.isCall = false) (x : Value) :
    (∀ data : Value,
      e.evaluate Scope.plain.toNames data = .done ((data.at? e.path).getD .null) data ∧
      (∀ old data', data.set e.path x = .ok (old, data') →
        e.assign Scope.plain x data = .done () data' ∧
          e.evaluate Scope.plain.toNames data' = .done x data') ∧
      ∀ err, data.set e.path x = .error err → e.assign Scope.plain x data = .failed err data) ∧
    ∀ (p : Page σ) (depth : Nat), Unwriting depth p →
      (∀ q, set (interpret depth) depth source x p = .done () q →
        Unwriting depth q ∧ ∀ run, evaluate run source .page q = .done x q) ∧
      ∀ err q, set (interpret depth) depth source x p = .failed err q →
        Unwriting depth q ∧ (q = p ∨ ∀ run, evaluate run source .page q = .done x q) := by
  have hplain := fun data => Expression.evaluate_plain hread hcall data
  refine ⟨fun data => ⟨hplain data, fun old data' hset => ⟨?_, ?_⟩, fun err herr => ?_⟩,
    fun p depth hp => ?_⟩
  · rw [assign_of_not_call hcall]
    exact Scope.assign_plain_of_ok hset
  · rw [hplain, (Value.at?_setFrom hset).1]
    rfl
  · rw [assign_of_not_call hcall]
    exact Scope.assign_plain_of_error herr
  · have hends := hp.ends_set hread hcall x
    refine ⟨fun q hdone => ?_, fun err q hfailed => ?_⟩
    · rw [hdone] at hends
      exact ⟨hp.of_stirred hends.1, hends.2⟩
    · rw [hfailed] at hends
      exact ⟨hp.of_stirred hends.1, hends.2⟩

/-- A page with a watcher that asks for nodes: what was set below the watched field is read. -/
theorem read_back_asking :
    Expression.read "m.a" = .ok ⟨"m.a", "m", [.field "a"], false⟩ ∧ Unwriting 3 askingPage ∧
    ∃ q, set (interpret 3) 3 "m.a" (.bool true) askingPage = .done () q ∧
      evaluate (interpret 3) "m.a" .page q = .done (.bool true) q := by
  have hread : Expression.read "m.a" = .ok ⟨"m.a", "m", [.field "a"], false⟩ :=
    eq_ok_of_toOption (by decide +kernel)
  have hreached : Reached (fun _ _ => true) askingOptions askingPage := .start [] [] .blank ()
  have hunwriting : Unwriting 3 askingPage := serves_askingPage.unwriting mild_spares hreached.sound
  have hset := Outcome.eq_done (o := set (interpret 3) 3 "m.a" (.bool true) askingPage)
    (by decide +kernel) askingPage
  have hback := ((read_back hread rfl (.bool true)).2 askingPage 3 hunwriting).1 _ hset
  exact ⟨hread, hunwriting, _, hset, hback.2 _⟩

end ReactiveView.Page
