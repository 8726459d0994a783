import ReactiveView.Page.Compile
/-!
# Running programs

The meaning of commands and programs, and how a page comes about.

Programs may call each other without end: a watcher may write what it watches. So a program runs at
a depth, and every program that it sets off runs at a smaller one. A run that ends does not depend
on the depth; one that does not is `exhausted` at every depth.
-/
namespace ReactiveView.Page

variable {σ : Type}

/-- The meaning of a command, given what runs programs and the depth of walks. -/
def perform (run : Program σ → Run (Page σ) Value) (depth : Nat) :
    (c : Command) → Run (Page σ) c.Reply
  | .surface e => editSurface e
  | .dispatch node event value => dispatch run depth node event value
  | .graph e => onGraph fun g => g.apply e
  | .notify id => (cascade run).notify id
  | .notifyBelow id => (cascade run).notifyBelow depth id
  | .notifyAbove id => (cascade run).notifyAbove depth id
  | .notifyAll id => (cascade run).notifyAll depth id
  | .notifyEvery => (cascade run).notifyEvery
  | .write path x => write run depth path x
  | .valueOf source => valueOf run source
  | .lookup name => lookup run name
  | .invoke name => invoke run name
  | .assign path x => assign run depth path x
  | .evaluate source scope => evaluate run source scope
  | .set source x => set run depth source x
  | .refresh source => refresh run depth source
  | .grow source => grow source
  | .bind node source request => bind run node source request
  | .compile mount => compile run depth mount
  | .handle directive node source => do
    match ← Run.look fun p => p.registry.get? directive with
    | none => pure none
    | some h => do
      let stopped ← handle run (compileNode run depth) h node source
      pure (some stopped)

/-- A program run on a page, given what runs the programs that it sets off. -/
def exec (run : Program σ → Run (Page σ) Value) (depth : Nat) : Program σ → Run (Page σ) Value
  | .done v => pure v
  | .fail e => Run.fail e
  | .look next => fun p => exec run depth (next p.view) p
  | .update change next => fun p => exec run depth next { p with host := change p.host }
  | .act c next => do
    let r ← (perform run depth c).attempt
    exec run depth (next r)
  | .observe id watcher next => do
    let r ← Run.attempt (onGraph fun g => g.settle (g.observe id (.watcher watcher)))
    exec run depth (next r)
  | .listen node event listener next => do
    let r ← Run.attempt (onSurface fun s => s.settle (s.listen node event (.script listener)))
    exec run depth (next r)

/-- A program run on a page at a depth. -/
def interpret : (depth : Nat) → Program σ → Run (Page σ) Value
  | 0, _ => Run.exhausted
  | depth + 1, program => exec (interpret depth) depth program

/-- What the author of a page supplies. -/
structure Options (σ : Type) where
  data : Value
  methods : List (String × Program σ)
  computed : List (String × Program σ)
  watches : List (String × (Value → Value → Program σ))

/-- The options that supply nothing: an empty record of data. -/
def Options.none : Options σ := ⟨.record [], [], [], []⟩

/-- A page before anything is compiled: the nodes of the data, those of the computed properties in
order, and the watchers. A watcher of what has no node is left out. -/
def assemble (options : Options σ) (registry : Registry σ) (scopes : Entries Value)
    (surface : Surface (Listener σ)) (host : σ) : Page σ :=
  let nodes := options.computed.foldl (fun g c => (g.insertComputed c.1).2)
    (Graph.ofData options.data)
  let graph := options.watches.foldl (fun g w =>
    match g.locate w.1 with
    | Option.none => g
    | some id => (g.settle (g.observe id (.watcher w.2))).2) nodes
  { surface, graph, registry, scopes, host
    data := options.data
    methods := Entries.get? options.methods
    computed := Entries.get? options.computed
    live := true }

/-- The page closed: what it wrote stays, and nothing is written back any more. -/
def close (p : Page σ) : Page σ := { p with live := false }

end ReactiveView.Page
