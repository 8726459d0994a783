import ReactiveView.Proofs.Page.Coverage
/-!
# Names of a page

A write respects what is read-only: a name that the data does not own must not be that of a computed
property or a method. So as long as no write replaces the data as a whole, the data keeps the names
that it has at the top, and never gets the name of a computed property. Then what has a node of the
data at the top is a field of the data, and a path that may be written does not resolve to a
computed node. Numerals are left out: a path that starts with an index may be written even if its
key is the name of a computed property.

Results:
* `Named.of_reached`: pages stay that way as long as all writes go below the root.
* `not_mem_computed_of_resolve`: a path that may be written resolves to a node of the data.
-/
namespace ReactiveView.Page

open ReactiveView.Graph Run

variable {σ : Type} {p p' : Page σ}

/-- All writes go below the root, to what is not read-only, and the graph is not edited by hand. -/
def Rules.below : Rules σ where
  write p path _ := path ≠ [] ∧ p.isReadOnly path = false
  graph _ := False

/-- The policy that admits writes below the root only, and no edits of the graph by hand. -/
def Policy.below : Policy σ
  | _, .graph _ => false
  | p, .write path _ => !path.isEmpty && !p.isReadOnly path
  | _, .assign path _ => !path.isEmpty
  | _, _ => true

theorem Listener.allowed_below (l : Listener σ) : Listener.Allowed .below l := by
  cases l with
  | writeBack target e scope =>
    cases scope with
    | page => exact fun _ _ hfree => ⟨List.cons_ne_nil _ _, hfree⟩
    | plain name => trivial
  | script f => trivial

theorem Policy.below_enforces : (Policy.below : Policy σ).Enforces .below := by
  intro p c hc
  cases c <;> try trivial
  case write path x =>
    simp only [Policy.below, Bool.and_eq_true, Bool.not_eq_true', List.isEmpty_eq_false_iff] at hc
    exact hc
  case assign path x =>
    simp only [Policy.below, Bool.not_eq_true', List.isEmpty_eq_false_iff] at hc
    exact fun hfree => ⟨hc, hfree⟩
  case set source x => exact fun e _ hfree => ⟨List.cons_ne_nil _ _, hfree⟩
  case dispatch node event value => exact fun _ _ l _ => Listener.allowed_below l

/-- A name that is not the numeral of an index. -/
def NotNumeral (name : String) : Prop := ∀ n, name ≠ (Segment.index n).key

/-- A graph whose nodes lie as the data lies, and whose names are told apart. -/
structure Keyed (data : Value) (computed : String → Option (Program σ))
    (g : Graph (Observer σ)) : Prop where
  grown : g.Grown
  /-- A computed node is that of a computed property. -/
  property : ∀ i name source, i ∈ g.computed → g.place? i = some (name, source) →
    (computed name).isSome
  /-- A node at the top is that of a field, unless its key is a numeral. -/
  field : ∀ i key s, g.place? i = some (key, .data [s]) →
    (data.field? s.key).isSome ∨ ∃ n, s = .index n
  /-- A field that has the name of a computed property has a node of its own. -/
  child : ∀ key, NotNumeral key → (data.field? key).isSome → (computed key).isSome →
    (g.childByKey root key).isSome

section

variable {data : Value} {computed : String → Option (Program σ)} {g g' : Graph (Observer σ)}

theorem Keyed.sameShape (h : Keyed data computed g) (hshape : SameShape g g') :
    Keyed data computed g' where
  grown := hshape.grown h.grown
  property i name source := by
    rw [hshape.computed, hshape.place]
    exact h.property i name source
  field i key s := by
    rw [hshape.place]
    exact h.field i key s
  child key := by
    rw [hshape.childByKey]
    exact h.child key

/-- A write below the root, to what may be written. -/
theorem Keyed.set (h : Keyed data computed g) {path : Path} {x old data' : Value}
    (hpath : path ≠ [])
    (hfree : ∀ name, path = [.field name] → (computed name).isSome → (data.field? name).isSome)
    (hset : data.set path x = .ok (old, data')) : Keyed data' computed g where
  grown := h.grown
  property := h.property
  field i key s hplace := (h.field i key s hplace).imp_left (Value.field?_set hpath hset)
  child key hkey hfield hc := by
    refine h.child key hkey ?_ hc
    rcases Value.field?_of_set hpath hset hfield with hold | ⟨s, rfl, hs⟩
    · exact hold
    · cases s with
      | field name =>
        obtain rfl : name = key := hs
        exact hfree name rfl hc
      | index n => exact absurd hs.symm (hkey n)

/-- Nodes for the members of a value of the data. -/
theorem Keyed.grows (h : Keyed data computed g) {path : Path} {v : Value}
    (hv : data.at? path = some v)
    (hgrows : Grows (fun q => ∃ rest, q = path ++ rest ∧ Outline.Leads v.outline rest) g g') :
    Keyed data computed g' where
  grown := hgrows.grown h.grown
  property i name source hi hplace := by
    rw [hgrows.computed] at hi
    obtain ⟨name', hold⟩ := h.grown.computed i hi
    rw [(hgrows.place? (lt_of_place? hold)).1] at hplace
    exact h.property i name source hi hplace
  field i key s hplace := by
    rcases hgrows.top_or hv hplace with hold | hleads
    · exact h.field i key s hold
    · exact Value.field?_of_leads hleads
  child key hkey hfield hc := by
    obtain ⟨c, hchild⟩ := Option.isSome_iff_exists.mp (h.child key hkey hfield hc)
    rw [hgrows.childByKey h.grown hchild]
    rfl

theorem Keyed.ofData (data : Value) (computed : String → Option (Program σ)) :
    Keyed data computed (Graph.ofData data) where
  grown := grown_ofData data
  property i name source hi := by
    rw [computed_ofData] at hi
    cases hi
  field i key s hplace := by
    rcases (grows_ofData data).source hplace with hbare | ⟨q, t, heq, hleads⟩
    · obtain rfl := lt_bare hbare
      cases hbare
    · rw [Source.data.injEq] at heq
      exact Value.field?_of_leads (heq ▸ hleads)
  child key _ hfield _ := childByKey_ofData hfield

theorem Keyed.insertComputed (h : Keyed data computed g) {name : String}
    (hname : (computed name).isSome) : Keyed data computed (g.insertComputed name).2 where
  grown := grown_insertComputed h.grown name
  property i name' source hi hplace := by
    rw [place?_insertComputed] at hplace
    split at hplace
    · cases hplace
      exact hname
    · next hne =>
      rcases List.mem_append.mp hi with hi | hi
      · exact h.property i name' source hi hplace
      · exact absurd (List.mem_singleton.mp hi) hne
  field i key s hplace := by
    rw [place?_insertComputed] at hplace
    split at hplace
    · cases hplace
    · exact h.field i key s hplace
  child key hkey hfield hc := by
    obtain ⟨c, hchild⟩ := Option.isSome_iff_exists.mp (h.child key hkey hfield hc)
    rw [childByKey_insertComputed h.grown hchild]
    rfl

end

/-- A page on which names are told apart, with a sound surface. -/
structure Named (p : Page σ) : Prop where
  surface : p.surface.Sound
  keyed : Keyed p.data p.computed p.graph

theorem Change.surface_sound {rules : Rules σ} (h : Change rules p p') (hp : p.surface.Sound) :
    p'.surface.Sound := by
  cases h with
  | surface hstep => exact Surface.sound_step hp hstep
  | _ => exact hp

/-- A name of a computed property that may be written is a field of the data. -/
theorem field?_of_isReadOnly {name : String} {rest : Path}
    (hfree : p.isReadOnly (.field name :: rest) = false) (h : (p.computed name).isSome) :
    (p.data.field? name).isSome := by
  simp only [isReadOnly, h, Bool.true_or, Bool.and_true] at hfree
  cases hname : p.data.field? name with
  | some v => rfl
  | none =>
    rw [hname] at hfree
    cases hfree

theorem Named.change (hp : Named p) (h : Change .below p p') : Named p' := by
  refine ⟨h.surface_sound hp.surface, ?_⟩
  rw [h.computed_methods.1]
  rcases h.data_graph (fun _ he => he) hp.keyed.grown with ⟨hshape, hdata⟩ | ⟨-, hdata, hgrows⟩
  · refine Keyed.sameShape ?_ hshape
    rcases hdata with heq | ⟨path, x, old, ⟨hpath, hfree⟩, hset⟩
    · rw [heq]
      exact hp.keyed
    · refine hp.keyed.set hpath ?_ hset
      rintro name rfl
      exact field?_of_isReadOnly hfree
  · obtain ⟨id, path, v, -, hv, hgrows⟩ := hgrows
    rw [hdata]
    exact hp.keyed.grows hv hgrows

theorem Named.assemble (options : Options σ) (registry : Registry σ) (scopes : Entries Value)
    {surface : Surface (Listener σ)} (hs : surface.Sound) (host : σ) :
    Named (assemble options registry scopes surface host) := by
  refine ⟨hs, ?_⟩
  refine assemble_graph (J := Keyed options.data (Entries.get? options.computed))
    (.ofData _ _) (fun g name hname h => h.insertComputed ?_)
    (fun g g' id w _ ho h => h.sameShape (sameShape_observe ho)) registry scopes surface host
  rw [Option.isSome_iff_ne_none]
  exact fun hnone => (Entries.get?_eq_none_iff _ _).mp hnone hname

/-- Names stay told apart as long as all writes go below the root. -/
theorem Named.of_reached {options : Options σ} (h : Reached .below options p) : Named p :=
  h.keeps Policy.below_enforces
    (fun registry scopes _ host hs =>
      .assemble options registry scopes (Surface.sound_of_reached hs) host)
    (fun _ _ hchange hp => hp.change hchange) fun _ hp => ⟨hp.surface, hp.keyed⟩

/-- A path that starts with a name and may be written does not resolve to a computed node. -/
theorem not_mem_computed_of_resolve (hp : Named p) {name : String} {rest : Path} {id : Nat}
    (hname : NotNumeral name) (hid : p.graph.resolve (.field name :: rest) = some id)
    (hfree : p.isReadOnly (.field name :: rest) = false) : id ∉ p.graph.computed := by
  have hgrown := hp.keyed.grown
  intro hmem
  rcases resolve_eq_some hgrown hid with hwalk | ⟨s, hs, -, hplace, hnone⟩
  · obtain ⟨path, hpath, -⟩ := location?_of_walk hgrown (location?_root hgrown) hwalk
    rw [location?_of_mem_computed hgrown hmem] at hpath
    cases hpath
  · cases hs
    have hc := hp.keyed.property id _ _ hmem hplace
    have hchild := hp.keyed.child name hname (field?_of_isReadOnly hfree hc) hc
    rw [show name = (Segment.field name).key from rfl, hnone] at hchild
    cases hchild

end ReactiveView.Page
