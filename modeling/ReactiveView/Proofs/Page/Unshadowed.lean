import ReactiveView.Proofs.Expression.Grammar
import ReactiveView.Proofs.Page.Spelling
import ReactiveView.Proofs.Page.Topology
import ReactiveView.Proofs.Value.Members
/-!
# Names that stay free

Members of the data, computed properties and methods share the names at the top, and members come
first. A write makes the member that is missing at the end of its path, so it could put a member in
front of a computed property. The check for what is read-only looks at the page as it is when the
write comes; but a name that the data does not own then is refused, so the data does not own it
later either. This needs that writes start with a name: one that starts with an index is not checked,
and makes a member whose key is a numeral.

In the graph, a computed node is found where no node of the data at the top has its key. These are
the nodes of what the data owns. In a list they have numerals for their keys, which are no names in
expressions but may be those of computed properties. And one name never means a computed property
where a node is asked for: that of the root.

Results:
* `Unshadowed.change`: no change under the rules takes a name away.
* `unshadowed_of_reached`: what the names of computed properties and methods mean on every page.
-/
namespace ReactiveView

open Relation Run

/-- Whether a path starts with a name. -/
def Path.startsWithName : Path → Bool
  | .field _ :: _ => true
  | _ => false

namespace Value

variable {v v' old x : Value}

/-- The data has a member at the top: a field of a record, or an element of a list. -/
def Owns (v : Value) : Segment → Prop
  | .field name => (v.field? name).isSome
  | .index n => (v.element? n).isSome

theorem element?_put {s : Segment} {before : Path} {n : Nat} (h : v.put s x before = .ok (old, v'))
    (hn : (v.element? n).isSome) : (v'.element? n).isSome := by
  cases v with
  | list items =>
    have hn : (items[n]?).isSome := hn
    simp only [put] at h
    split at h
    · split at h
      · cases h
        simpa [element?] using hn
      · split at h
        · cases h
          simp only [element?, isSome_getElem?, List.length_append] at hn ⊢
          omega
        · cases h
    · cases h
  | record entries => cases hn
  | null => cases hn
  | bool b => cases hn
  | number m => cases hn
  | text t => cases hn

theorem element?_replace {s : Segment} (x : Value) {n : Nat} (hn : (v.element? n).isSome) :
    ((v.replace s x).element? n).isSome := by
  cases v with
  | list items =>
    have hn : (items[n]?).isSome := hn
    simp only [replace]
    split
    · simpa [element?] using hn
    · exact hn
  | record entries => cases hn
  | null => cases hn
  | bool b => cases hn
  | number m => cases hn
  | text t => cases hn

/-- A write below the root takes no member away. -/
theorem owns_set {path : Path} (hpath : path ≠ []) (h : v.set path x = .ok (old, v')) {s : Segment}
    (hs : v.Owns s) : v'.Owns s := by
  cases s with
  | field name => exact field?_set hpath h hs
  | index n =>
    match path with
    | [] => exact absurd rfl hpath
    | [s] => exact element?_put h hs
    | s :: t :: rest =>
      obtain ⟨next, next', -, -, rfl⟩ := setFrom_cons_cons h
      exact element?_replace next' hs

/-- A member at the top of the outline is one that the data owns. -/
theorem owns_of_leads {s : Segment} (h : Outline.Leads v.outline [s]) : v.Owns s := by
  have hmem : ∃ below, .member s below ∈ v.outline := by
    cases h with
    | top hm => exact ⟨_, hm⟩
    | deep _ hp => cases hp
  obtain ⟨below, hm⟩ := hmem
  rw [outline_eq] at hm
  obtain ⟨⟨t, w⟩, hw, heq⟩ := List.mem_map.mp hm
  cases heq
  cases v with
  | list items =>
    obtain ⟨n, hn, heq⟩ := List.mem_mapIdx.mp hw
    cases heq
    show (items[n]?).isSome
    rw [List.getElem?_eq_getElem hn]
    rfl
  | record entries =>
    obtain ⟨e, he, heq⟩ := List.mem_map.mp hw
    cases heq
    show (Entries.get? entries e.1).isSome
    rw [Option.isSome_iff_ne_none]
    exact fun hnone => (Entries.get?_eq_none_iff entries e.1).mp hnone (List.mem_map_of_mem he)
  | null => cases hw
  | bool b => cases hw
  | number n => cases hw
  | text t => cases hw

end Value

namespace Page

open ReactiveView.Graph

variable {σ : Type} {p p' : Page σ} {options : Options σ}

/-- All writes start with a name, to what is not read-only, and the graph is not edited by hand. -/
def Rules.named : Rules σ where
  write p path _ := path.startsWithName ∧ p.isReadOnly path = false
  graph _ := False

/-- The policy that admits writes that start with a name only, and no edits of the graph by hand. -/
def Policy.named : Policy σ
  | _, .graph _ => false
  | p, .write path _ => path.startsWithName && !p.isReadOnly path
  | _, .assign path _ => path.startsWithName
  | _, _ => true

theorem Listener.allowed_named (l : Listener σ) : Listener.Allowed .named l := by
  cases l with
  | writeBack target e scope =>
    cases scope with
    | page => exact fun _ _ hfree => ⟨rfl, hfree⟩
    | plain name => trivial
  | script f => trivial

theorem Policy.named_enforces : (Policy.named : Policy σ).Enforces .named := by
  intro p c hc
  cases c <;> try trivial
  case write path x =>
    simp only [Policy.named, Bool.and_eq_true, Bool.not_eq_true'] at hc
    exact hc
  case set source x => exact fun e _ hfree => ⟨rfl, hfree⟩
  case dispatch node event value => exact fun _ _ l _ => Listener.allowed_named l

/-- A computed property or a method is supplied under a name. -/
def Supplies (options : Options σ) (name : String) : Prop :=
  (Entries.get? options.computed name).isSome ∨ (Entries.get? options.methods name).isSome

/-- The data has taken no name of a computed property or a method, every node of the data at the top
is that of a member, and every computed property has a node. -/
structure Unshadowed (options : Options σ) (p : Page σ) : Prop where
  grown : p.graph.Grown
  computed : p.computed = Entries.get? options.computed
  methods : p.methods = Entries.get? options.methods
  free : ∀ name, Supplies options name → options.data.field? name = none →
    p.data.field? name = none
  top : ∀ i key s, p.graph.place? i = some (key, .data [s]) → p.data.Owns s
  node : ∀ name ∈ Entries.keys options.computed, ∃ i ∈ p.graph.computed,
    p.graph.place? i = some (name, .computed name)

/-! ## The page at the start -/

theorem exists_computed_foldl {ω τ : Type} (cs : List (String × τ)) (g : Graph ω) (name : String)
    (h : name ∈ Entries.keys cs ∨ ∃ i ∈ g.computed, g.place? i = some (name, .computed name)) :
    ∃ i ∈ (cs.foldl (fun g c => (g.insertComputed c.1).2) g).computed,
      (cs.foldl (fun g c => (g.insertComputed c.1).2) g).place? i
        = some (name, .computed name) := by
  induction cs generalizing g with
  | nil => exact h.resolve_left List.not_mem_nil
  | cons c cs ih =>
    refine ih _ ?_
    rcases h with hmem | ⟨i, hi, hplace⟩
    · rcases List.mem_cons.mp hmem with rfl | hmem
      · refine .inr ⟨g.forest.size, List.mem_append_right _ List.mem_cons_self, ?_⟩
        rw [place?_insertComputed, if_pos rfl]
      · exact .inl hmem
    · refine .inr ⟨i, List.mem_append_left _ hi, ?_⟩
      rw [place?_insertComputed, if_neg (Nat.ne_of_lt (lt_of_place? hplace))]
      exact hplace

/-- Every computed property has a node from the start. -/
theorem exists_computed_assemble (options : Options σ) (registry : Registry σ)
    (scopes : Entries Value) (surface : Surface (Listener σ)) (host : σ) {name : String}
    (hname : name ∈ Entries.keys options.computed) :
    ∃ i ∈ (assemble options registry scopes surface host).graph.computed,
      (assemble options registry scopes surface host).graph.place? i
        = some (name, .computed name) := by
  unfold assemble
  refine List.foldlRecOn (motive := fun g : Graph (Observer σ) => ∃ i ∈ g.computed,
    g.place? i = some (name, .computed name)) _ _
    (exists_computed_foldl options.computed _ name (.inl hname)) fun g hg w _ => ?_
  split
  · exact hg
  · next id _ =>
    cases ho : g.observe id (.watcher w.2) with
    | error e => exact hg
    | ok g' =>
      have hshape := sameShape_observe ho
      obtain ⟨i, hi, hplace⟩ := hg
      exact ⟨i, hshape.computed ▸ hi, (hshape.place i).trans hplace⟩

/-- The nodes at the top are those of the members of the data. -/
theorem owns_assemble (options : Options σ) (registry : Registry σ) (scopes : Entries Value)
    (surface : Surface (Listener σ)) (host : σ) :
    (assemble options registry scopes surface host).graph.Grown ∧ ∀ i key s,
      (assemble options registry scopes surface host).graph.place? i = some (key, .data [s]) →
      options.data.Owns s := by
  refine assemble_graph (J := fun g => g.Grown ∧ ∀ i key s, g.place? i = some (key, .data [s]) →
      options.data.Owns s)
    ⟨grown_ofData _, fun i key s hplace => ?_⟩
    (fun g name _ hg => ⟨grown_insertComputed hg.1 name, fun i key s hplace => ?_⟩)
    (fun g g' id w _ ho hg => ⟨(sameShape_observe ho).grown hg.1, fun i key s hplace => ?_⟩)
    registry scopes surface host
  · rcases (grows_ofData options.data).source hplace with hbare | ⟨path, t, heq, hleads⟩
    · obtain rfl := lt_bare hbare
      cases hbare
    · rw [Source.data.injEq] at heq
      exact Value.owns_of_leads (heq ▸ hleads)
  · rw [place?_insertComputed] at hplace
    split at hplace
    · cases hplace
    · exact hg.2 i key s hplace
  · exact hg.2 i key s (((sameShape_observe ho).place i).symm.trans hplace)

theorem Unshadowed.assemble (options : Options σ) (registry : Registry σ) (scopes : Entries Value)
    (surface : Surface (Listener σ)) (host : σ) :
    Unshadowed options (assemble options registry scopes surface host) := by
  obtain ⟨hgrown, htop⟩ := owns_assemble options registry scopes surface host
  exact ⟨hgrown, rfl, rfl, fun _ _ hnone => hnone, htop,
    fun name hname => exists_computed_assemble options registry scopes surface host hname⟩

/-! ## Changes -/

/-- What may be written is a member of the data, or has the name of neither a computed property nor
a method. -/
theorem not_supplies_of_isReadOnly (hp : Unshadowed options p) {name : String} {rest : Path}
    (hfree : p.isReadOnly (.field name :: rest) = false) (hnone : p.data.field? name = none) :
    ¬Supplies options name := by
  rw [isReadOnly, hnone, hp.computed, hp.methods] at hfree
  intro hsupplies
  rcases hsupplies with hc | hm
  · simp [hc] at hfree
  · simp [hm] at hfree

theorem Unshadowed.change (hp : Unshadowed options p) (h : Change .named p p') :
    Unshadowed options p' := by
  obtain ⟨hcomputed, hmethods⟩ := h.computed_methods
  have hdata := h.data_graph (fun _ he => he) hp.grown
  rcases hdata with ⟨hshape, hdata⟩ | ⟨-, hdata, hgrows⟩
  · refine ⟨hshape.grown hp.grown, hcomputed.trans hp.computed, hmethods.trans hp.methods,
      fun name hsupplies hnone => ?_, fun i key s hplace => ?_, fun name hname => ?_⟩
    · have hold := hp.free name hsupplies hnone
      rcases hdata with heq | ⟨path, x, old, ⟨hstart, hfree⟩, hset⟩
      · rw [heq]
        exact hold
      · -- only a write to the very name could add it, and that one is refused
        refine Option.not_isSome_iff_eq_none.mp fun hsome => ?_
        have hpath : path ≠ [] := by
          rintro rfl
          cases hstart
        rcases Value.field?_of_set hpath hset hsome with hold' | ⟨s, rfl, hs⟩
        · rw [hold] at hold'
          cases hold'
        · cases s with
          | field key =>
            obtain rfl : key = name := hs
            exact not_supplies_of_isReadOnly hp hfree hold hsupplies
          | index n => cases hstart
    · rw [hshape.place] at hplace
      have howns := hp.top i key s hplace
      rcases hdata with heq | ⟨path, x, old, ⟨hstart, -⟩, hset⟩
      · rw [heq]
        exact howns
      · refine Value.owns_set ?_ hset howns
        rintro rfl
        cases hstart
    · obtain ⟨i, hi, hplace⟩ := hp.node name hname
      exact ⟨i, hshape.computed ▸ hi, (hshape.place i).trans hplace⟩
  · obtain ⟨id, path, v, -, hv, hgrows⟩ := hgrows
    have hextends := hgrows.extends hp.grown
    refine ⟨hgrows.grown hp.grown, hcomputed.trans hp.computed, hmethods.trans hp.methods,
      fun name hsupplies hnone => ?_, fun i key s hplace => ?_, fun name hname => ?_⟩
    · rw [hdata]
      exact hp.free name hsupplies hnone
    · rw [hdata]
      rcases hgrows.top_or hv hplace with hold | hleads
      · exact hp.top i key s hold
      · exact Value.owns_of_leads hleads
    · obtain ⟨i, hi, hplace⟩ := hp.node name hname
      exact ⟨i, hextends.computed ▸ hi, (hextends.place i (lt_of_place? hplace)).trans hplace⟩

/-- No change takes a name away, on the way through a run as at its end. -/
theorem Unshadowed.of_reached (h : Reached .named options p)
    (hsteps : ReflTransGen (Change .named) p p') : Unshadowed options p' := by
  have hp : Unshadowed options p := h.keeps Policy.named_enforces
    (fun registry scopes surface host _ => .assemble options registry scopes surface host)
    (fun _ _ hchange hp => hp.change hchange)
    fun _ hp => ⟨hp.grown, hp.computed, hp.methods, hp.free, hp.top, hp.node⟩
  exact keeps_of_steps (fun _ _ hchange hp => hp.change hchange) hp hsteps

/-! ## What the names mean -/

/-- A node of the data at the top with the key of a free name is that of an element of a list. -/
theorem childByKey_of_free (hp : Unshadowed options p) {name : String}
    (hfree : p.data.field? name = none)
    (hindex : ∀ n, name = (Segment.index n).key → p.data.element? n = none) :
    p.graph.childByKey root name = none := by
  refine Option.eq_none_iff_forall_ne_some.mpr fun c hc => ?_
  obtain ⟨hparent, hkey⟩ := (childByKey_eq_some_iff hp.grown).mp hc
  obtain ⟨base, path, s, hbase, hplace, hkeys⟩ := hp.grown.child c root hparent
  rw [location?_root hp.grown] at hbase
  cases hbase
  obtain rfl : path = [] := List.map_eq_nil_iff.mp hkeys
  rw [hplace] at hkey
  cases hkey
  have howns := hp.top c _ s hplace
  cases s with
  | field key =>
    rw [show Segment.key (.field key) = key from rfl] at hfree
    rw [Value.Owns, hfree] at howns
    cases howns
  | index n =>
    rw [Value.Owns, hindex n rfl] at howns
    cases howns

/-- A computed property has a node that is found by its name among the computed ones. -/
theorem exists_find?_computed (hp : Unshadowed options p) {name : String}
    (hname : name ∈ Entries.keys options.computed) : ∃ id ∈ p.graph.computed,
      p.graph.place? id = some (name, .computed name) ∧
      p.graph.computed.find? (p.graph.hasKey name) = some id := by
  obtain ⟨i, hi, hplace⟩ := hp.node name hname
  have hkey : p.graph.hasKey name i := hasKey_iff.mpr (by rw [hplace]; rfl)
  obtain ⟨id, hfind⟩ := Option.isSome_iff_exists.mp (List.find?_isSome.mpr ⟨i, hi, hkey⟩)
  have hmem := List.mem_of_find?_eq_some hfind
  obtain ⟨name', hplace'⟩ := hp.grown.computed id hmem
  have hkey' := hasKey_iff.mp (List.find?_some hfind)
  rw [hplace'] at hkey'
  cases hkey'
  exact ⟨id, hmem, hplace', hfind⟩

/-- A text that is read as a name other than that of the root leads where the name leads. -/
theorem locate_of_read {ω : Type} (g : Graph ω) {source name : String} {e : Expression}
    (he : Expression.read source = .ok e) (hcall : e.isCall = false) (hpath : e.path = [.field name])
    (hroot : name ≠ Expression.rootName) : g.locate source = g.resolve [.field name] := by
  have hread := Expression.read_trimmed he
  have hne : Text.trimmed source ≠ Expression.rootName := by
    intro heq
    have hreads : Expression.read Expression.rootName
        = .ok ⟨Expression.rootName, Expression.rootName, [], false⟩ :=
      eq_ok_of_toOption (by decide +kernel)
    rw [heq, hreads] at hread
    cases hread
    cases hpath
    exact hroot rfl
  simp only [Graph.locate, if_neg hne, hread, hcall, Bool.false_eq_true, if_false, hpath]

/-- Nothing gets in front of a computed property or a method. In every run whose writes all start
with a name, and all the way through it, a name of one that the data does not own at the start is no
member of the data. Every write that starts with it is refused and changes nothing; looking it up
runs the computed property; and the computed property has a node of its own, to which the name
resolves unless it is the index of an element of the data, and which it names as an expression unless
it is the name of the root. -/
theorem unshadowed_of_reached (h : Reached .named options p)
    (hsteps : ReflTransGen (Change .named) p p') {name : String} (hname : Supplies options name)
    (hfree : options.data.field? name = none) :
    p'.data.field? name = none ∧
    (∀ run depth rest x, assign run depth (.field name :: rest) x p' = .failed (.notAssignable
      (Path.text (.field name :: rest)) "computed properties and methods are read-only") p') ∧
    (∀ run depth source e x, Expression.read source = .ok e → e.head = name →
      set run depth source x p' = .failed (if e.isCall then
        .notAssignable e.source "call expressions are read-only" else
        .notAssignable e.path.text "computed properties and methods are read-only") p') ∧
    ∀ program, Entries.get? options.computed name = some program →
      (∀ run, lookup run name p' = (run program >>= fun v => pure (some v)) p') ∧
      ∃ id ∈ p'.graph.computed, p'.graph.place? id = some (name, .computed name) ∧
        ((∀ n, name = (Segment.index n).key → p'.data.element? n = none) →
          p'.graph.resolve [.field name] = some id) ∧
        (name ≠ Expression.rootName → ∀ source e, Expression.read source = .ok e →
          e.isCall = false → e.path = [.field name] → p'.graph.locate source = some id) := by
  have hp := Unshadowed.of_reached h hsteps
  have hnone := hp.free name hname hfree
  have hreadOnly : ∀ rest, p'.isReadOnly (.field name :: rest) = true := by
    intro rest
    rw [isReadOnly, hnone, hp.computed, hp.methods]
    rcases hname with hc | hm
    · simp [hc]
    · simp [hm]
  refine ⟨hnone, fun run depth rest x => assign_of_refused (hreadOnly rest),
    fun run depth source e x he hhead => set_of_refused he ?_,
    fun program hprogram => ⟨fun run => ?_, ?_⟩⟩
  · rw [Expression.path, hhead]
    exact hreadOnly e.tail
  · have hcomputed : p'.computed name = some program := by
      rw [hp.computed, hprogram]
    rw [lookup, bind_of_done (show Run.look _ p' = .done none p' by rw [Run.look, hnone])]
    exact bind_of_done (show Run.look _ p' = .done (some program) p' by rw [Run.look, hcomputed])
  · have hkeys : name ∈ Entries.keys options.computed := by
      refine Decidable.byContradiction fun hnot => ?_
      rw [(Entries.get?_eq_none_iff _ _).mpr hnot] at hprogram
      cases hprogram
    obtain ⟨id, hmem, hplace, hfind⟩ := exists_find?_computed hp hkeys
    have hresolve : (∀ n, name = (Segment.index n).key → p'.data.element? n = none) →
        p'.graph.resolve [.field name] = some id := by
      intro hindex
      have hchild : p'.graph.childByKey root (Segment.key (.field name)) = none :=
        childByKey_of_free hp hnone hindex
      rw [Graph.resolve, hchild, Option.none_or]
      show (p'.graph.computed.find? (p'.graph.hasKey name)).bind _ = _
      rw [hfind]
      rfl
    refine ⟨id, hmem, hplace, hresolve, fun hroot source e he hcall hpath => ?_⟩
    rw [locate_of_read p'.graph he hcall hpath hroot]
    have hhead : e.head = name := by
      have hfirst := congrArg List.head? hpath
      simpa [Expression.path] using hfirst
    -- a name in an expression is no numeral
    exact hresolve fun n hn => absurd (hhead.trans hn) (Expression.head_ne_decimal he n)

/-- A page with a name in two parts, and the whole name as a computed property. -/
def signedOptions : Options Unit :=
  ⟨.record [("first", .text "a")], [("reset", .fail (.callback "no"))], [("full", .get "first")], []⟩

/-- A write to a member, a refused write to the method, and nodes for what is there. -/
def signing : Program Unit :=
  .tell (.set "first" (.text "b")) fun _ =>
    .act (.set "reset" (.text "c")) fun _ => .tell (.grow "$root") fun _ => .done .null

def signedPage : Page Unit :=
  let start := assemble signedOptions [] [] .blank ()
  (interpret 4 signing start).stateD start

theorem reached_signedPage : Reached .named signedOptions signedPage := by
  have hstart : Reached .named signedOptions (assemble signedOptions [] [] .blank ()) :=
    .start [] [] .blank ()
  obtain ⟨v, hrun⟩ : ∃ v, interpret 4 signing (assemble signedOptions [] [] .blank ())
      = .done v signedPage := Outcome.exists_eq_done (by decide +kernel) _
  exact .done hstart (Outcome.ne_exhausted (by decide +kernel)) hrun

/-- After the run the name still means the computed property, and cannot be written. -/
theorem unshadowed_of_reached_signed : Reached .named signedOptions signedPage ∧
    signedPage.data.field? "full" = none ∧
    set (interpret 4) 4 "full" .null signedPage = .failed (.notAssignable "full"
      "computed properties and methods are read-only") signedPage ∧
    signedPage.graph.resolve [.field "full"] = some 2 := by
  have hread : Expression.read "full" = .ok ⟨"full", "full", [], false⟩ :=
    eq_ok_of_toOption (by decide +kernel)
  obtain ⟨hnone, -, hset, hcomputed⟩ :=
    unshadowed_of_reached reached_signedPage .refl (.inl rfl : Supplies signedOptions "full") rfl
  obtain ⟨-, id, hmem, -, hresolve, -⟩ := hcomputed _ rfl
  have htwo : signedPage.graph.computed = [2] := by decide +kernel
  rw [htwo, List.mem_singleton] at hmem
  subst hmem
  refine ⟨reached_signedPage, hnone, hset _ _ _ _ _ hread rfl, hresolve fun n hn => ?_⟩
  exact absurd hn (Expression.head_ne_decimal hread n)

/-- A computed property with the name of the root, and one whose name is the index of an element. -/
def rootOptions : Options Unit := ⟨.record [], [], [("$root", .done .null)], []⟩

def elementOptions : Options Unit := ⟨.list [.null], [], [("0", .done .null)], []⟩

/-- As an expression the name of the root means the root, and the index leads to the element, although
both are names of computed properties that the data does not own. -/
theorem names_shadowed :
    (¬∀ (options : Options Unit) (p : Page Unit) (name : String), Reached .named options p →
      (Entries.get? options.computed name).isSome → options.data.field? name = none →
      ∃ id, p.graph.locate name = some id ∧ p.graph.place? id = some (name, .computed name)) ∧
    ¬∀ (options : Options Unit) (p : Page Unit) (name : String), Reached .named options p →
      (Entries.get? options.computed name).isSome → options.data.field? name = none →
      ∃ id, p.graph.resolve [.field name] = some id ∧
        p.graph.place? id = some (name, .computed name) := by
  constructor
  · intro h
    obtain ⟨id, hid, hplace⟩ := h rootOptions (assemble rootOptions [] [] .blank ()) "$root"
      (.start [] [] .blank ()) rfl rfl
    have hroot : (assemble rootOptions [] [] .blank ()).graph.locate "$root" = some 0 := by
      decide +kernel
    rw [hroot] at hid
    cases hid
    have hplace' : (assemble rootOptions [] [] .blank ()).graph.place? 0 = some ("$root", .root) := by
      decide +kernel
    rw [hplace'] at hplace
    cases hplace
  · intro h
    obtain ⟨id, hid, hplace⟩ := h elementOptions (assemble elementOptions [] [] .blank ()) "0"
      (.start [] [] .blank ()) rfl rfl
    have helement : (assemble elementOptions [] [] .blank ()).graph.resolve [.field "0"] = some 1 := by
      decide +kernel
    rw [helement] at hid
    cases hid
    have hplace' : (assemble elementOptions [] [] .blank ()).graph.place? 1
        = some ("0", .data [.index 0]) := by decide +kernel
    rw [hplace'] at hplace
    cases hplace

end Page

end ReactiveView
