import ReactiveView.Page.Binding
import ReactiveView.Template.Repeat
import ReactiveView.Template.Substitution
/-!
# Compilation

Compiling walks a part of the surface, each element before its children. On an element the first
directive applies whose attribute is there and not blank; the attribute is taken away first. Unless
the directive has taken care of what is below the element, content that is an interpolation is then
bound, and the children that are still in place are compiled in order.

A repeat empties the parent of its element, appends a copy of the element for each member of the
collection, and compiles the parent; a parent that is no element is not compiled, but the copies
are.

A directive may make the surface deeper while it is walked, so the walk is given a depth.
-/
namespace ReactiveView.Page

variable {σ : Type} (run : Program σ → Run (Page σ) Value)

/-- Markup appended to a node; the new nodes. -/
def appendMarkup (parent : Nat) (source : String) : Run (Page σ) (List Nat) := do
  let tops ← editSurface (.fragment source)
  tops.forM fun top => editSurface (.append parent top)
  pure tops

/-- The copies of a template for the accessors of a collection, appended to a node; the new
nodes. -/
def appendCopies (parent : Nat) (template : List Fragment) (item : String) :
    List (List Char) → Run (Page σ) (List Nat)
  | [] => pure []
  | accessor :: rest => do
    let registry ← Run.look fun p => p.registry
    let copy := Template.substituteAll registry.has item.toList accessor template
    let tops ← appendMarkup parent (Markup.write copy)
    let more ← appendCopies parent template item rest
    pure (tops ++ more)

/-- The expansion of a repeat, given what compiles a node. -/
def expandRepeat (compile : Nat → Run (Page σ) Unit) (node : Nat) (source : String) :
    Run (Page σ) Unit := do
  let (item, collection) ← Run.ofExcept (Template.readRepeat source)
  match ← askSurface fun s => s.parent node with
  | none => Run.fail (.handler Registry.repeatName "repeated element has no parent")
  | some parent => do
    let markup ← askSurface fun s => s.outerMarkup node
    editSurface (.clear parent)
    let members ← evaluate run collection .page
    let template ← Run.ofExcept (Markup.read markup)
    let copies ← appendCopies parent template item (Template.accessors collection members)
    match ← askSurface fun s => s.content parent with
    | .element .. => compile parent
    | _ => copies.forM compile

/-- The handler of a directive at a node, given what compiles a node; whether it has taken care of
what is below the node. -/
def handle (compile : Nat → Run (Page σ) Unit) (h : Handler σ) (node : Nat) (source : String) :
    Run (Page σ) Bool :=
  match h with
  | .repeated => do
    expandRepeat run compile node source
    pure true
  | .model => do
    bind run node source ⟨.attributeNamed "value", some "input", true, .page⟩
    pure false
  | .custom f => do
    match ← run (f node source) with
    | .bool false => pure true
    | _ => pure false

/-- The first directive that applies to an element, with the text of its attribute. -/
def applicable? (p : Page σ) (node : Nat) : Option (String × Handler σ × String) :=
  p.registry.findSome? fun d =>
    match p.surface.attributeValue node d.1 with
    | .ok (some text) =>
      if (Text.trim text.toList).isEmpty then none else some (d.1, d.2, text)
    | _ => none

/-- The first directive that applies to an element, applied; whether it has taken care of what is
below the element. -/
def applyDirective (compile : Nat → Run (Page σ) Unit) (node : Nat) : Run (Page σ) Bool := do
  match ← Run.look fun p => p.applicable? node with
  | none => pure false
  | some (name, handler, text) => do
    editSurface (.removeAttribute node name)
    handle run compile handler node text

/-- The content of an element, bound if it is an interpolation. -/
def interpolate (node : Nat) : Run (Page σ) Unit := do
  let markup ← askSurface fun s => s.innerMarkup node
  match Template.interpolation? markup with
  | none => pure ()
  | some source => bind run node source ⟨.content, none, false, .page⟩

/-- A node and what is below it, compiled. -/
def compileNode : (depth : Nat) → (node : Nat) → Run (Page σ) Unit
  | 0, _ => Run.exhausted
  | depth + 1, node => do
    match ← askSurface fun s => s.content node with
    | .element .. => do
      if ← applyDirective run (compileNode depth) node then pure ()
      else
        interpolate run node
        let children ← askSurface fun s => s.children node
        children.forM fun child => do
          let parent ← askSurface fun s => s.parent child
          if parent = some node then compileNode depth child else pure ()
    | _ => pure ()

/-- The part of the surface at a mount, compiled. -/
def compile (depth : Nat) : Mount → Run (Page σ) Unit
  | .node i => compileNode run depth i
  | .selector source => do
    let i ← askSurface fun s => s.find source
    compileNode run depth i

end ReactiveView.Page
