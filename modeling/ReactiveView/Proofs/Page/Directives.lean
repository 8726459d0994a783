import Mathlib.Data.List.Induction
import ReactiveView.Page.Compile
import ReactiveView.Proofs.Surface.Retouched
import ReactiveView.Proofs.Surface.Shows
/-!
# The directive of an element

An author registers directives one after the other, and may register one again, under a name that
differs in the case of letters only. Then the directive keeps its place and has the handler that came
last. An element is taken care of by one directive at most: the first whose attribute is there and
not blank.

Results:
* `find?_keys_ofList`, `get?_ofList`: the order of registered directives, and their handlers.
* `applicable?_eq_some_iff`: the directive that applies, told from the registrations.
-/
namespace ReactiveView

namespace Entries

variable {α β : Type}

/-- The first entry whose key leads to something is told by the keys. -/
theorem findSome?_map_eq_some_iff {es : Entries α} {f : String → Option β} {key : String} {a : α}
    {b : β} : es.findSome? (fun e => (f e.1).map fun b => (e.1, e.2, b)) = some (key, a, b) ↔
      es.keys.find? (fun k => (f k).isSome) = some key ∧ f key = some b ∧ es.get? key = some a := by
  induction es with
  | nil => simp [keys]
  | cons e es ih =>
    obtain ⟨k, v⟩ := e
    rw [List.findSome?_cons, keys, List.map_cons, get?]
    cases hk : f k with
    | none =>
      rw [List.find?_cons_of_neg (by simp [hk])]
      refine ih.trans (and_congr_right fun _ => and_congr_right fun hkey => ?_)
      rw [if_neg]
      rintro rfl
      rw [hk] at hkey
      cases hkey
    | some c =>
      rw [List.find?_cons_of_pos (by simp [hk])]
      constructor
      · rintro ⟨⟩
        exact ⟨rfl, hk, if_pos rfl⟩
      · rintro ⟨⟨⟩, hkey, hv⟩
        rw [if_pos rfl] at hv
        cases hv
        cases hk.symm.trans hkey
        rfl

end Entries

namespace Registry

variable {σ : Type}

/-- The registry that registering directives one after the other leads to. -/
def ofList (regs : List (String × Handler σ)) : Registry σ :=
  regs.foldl (fun r d => r.register d.1 d.2) []

/-- The names under which directives are registered. -/
def names (regs : List (String × Handler σ)) : List String := regs.map fun d => Text.lowered d.1

/-- The handler that was registered last under a name. -/
def last? (regs : List (String × Handler σ)) (name : String) : Option (Handler σ) :=
  (regs.reverse.find? fun d => Text.lowered d.1 = name).map (·.2)

theorem ofList_concat (regs : List (String × Handler σ)) (d : String × Handler σ) :
    ofList (regs ++ [d]) = Entries.insert (ofList regs) (Text.lowered d.1) d.2 := by
  rw [ofList, List.foldl_append]
  rfl

/-- Directives are tried in the order in which their names came first. -/
theorem find?_keys_ofList (regs : List (String × Handler σ)) (p : String → Bool) :
    (Entries.keys (ofList regs)).find? p = (names regs).find? p := by
  induction regs using List.reverseRecOn with
  | nil => rfl
  | append_singleton regs d ih =>
    rw [ofList_concat, Entries.keys_insert, names, List.map_append, List.find?_append, ← names, ← ih]
    split
    · next hmem =>
      cases hfind : (Entries.keys (ofList regs)).find? p with
      | some name => rfl
      | none =>
        -- a name that came before was tried before
        have hp := List.find?_eq_none.mp hfind _ hmem
        rw [List.map_singleton, List.find?_cons_of_neg hp]
        rfl
    · rw [List.find?_append, List.map_singleton]

/-- A directive has the handler that came last. -/
theorem get?_ofList (regs : List (String × Handler σ)) (name : String) :
    Entries.get? (ofList regs) name = last? regs name := by
  induction regs using List.reverseRecOn with
  | nil => rfl
  | append_singleton regs d ih =>
    rw [ofList_concat, Entries.get?_insert, last?, List.reverse_concat, List.find?_cons]
    by_cases hname : Text.lowered d.1 = name
    · simp [hname]
    · rw [if_neg (Ne.symm hname), ih, last?]
      simp [hname]

end Registry

namespace Page

open Surface

variable {σ : Type} {p : Page σ}

/-- The directive that applies to an element, with its handler and the text of the attribute: of the
directives whose attribute is there and not blank the one that was registered first, with the handler
that was registered last under its name. -/
structure Chosen (regs : List (String × Handler σ)) (s : Surface (Listener σ)) (i : Nat)
    (name : String) (handler : Handler σ) (text : String) : Prop where
  first : (Registry.names regs).find? (fun name => (s.marked? i name).isSome) = some name
  text : s.marked? i name = some text
  last : Registry.last? regs name = some handler

/-- The directive that applies is the first one whose attribute is there and not blank. -/
theorem applicable?_eq (p : Page σ) (i : Nat) : p.applicable? i = p.registry.findSome? fun d =>
    (p.surface.marked? i d.1).map fun text => (d.1, d.2, text) := by
  refine congrArg (fun f => List.findSome? f p.registry) (funext fun d => ?_)
  unfold marked?
  rcases p.surface.attributeValue i d.1 with err | _ | text
  · rfl
  · rfl
  · dsimp only
    split <;> rfl

theorem applicable?_eq_some_iff {regs : List (String × Handler σ)}
    (hregs : p.registry = Registry.ofList regs) {i : Nat} {name : String} {handler : Handler σ}
    {text : String} :
    p.applicable? i = some (name, handler, text) ↔ Chosen regs p.surface i name handler text := by
  rw [applicable?_eq, hregs, Entries.findSome?_map_eq_some_iff, Registry.find?_keys_ofList,
    Registry.get?_ofList]
  exact ⟨fun ⟨hfirst, htext, hlast⟩ => ⟨hfirst, htext, hlast⟩, fun h => ⟨h.first, h.text, h.last⟩⟩

/-- Only elements have directives. -/
theorem isElement_of_marked? {s : Surface (Listener σ)} {i : Nat} {name text : String}
    (h : s.marked? i name = some text) : s.IsElement i := by
  unfold marked? attributeValue content at h
  cases hi : s.content? i with
  | none => simp [hi, Except.map] at h
  | some c =>
    cases c with
    | element tag as => exact ⟨tag, as, hi⟩
    | document => simp [hi, Except.map] at h
    | text t => simp [hi, Except.map] at h
    | comment t => simp [hi, Except.map] at h

theorem Chosen.isElement {regs : List (String × Handler σ)} {s : Surface (Listener σ)} {i : Nat}
    {name : String} {handler : Handler σ} {text : String} (h : Chosen regs s i name handler text) :
    s.IsElement i := isElement_of_marked? h.text

theorem isElement_of_applicable? {i : Nat} {d : String × Handler σ × String}
    (h : p.applicable? i = some d) : p.surface.IsElement i := by
  rw [applicable?_eq] at h
  obtain ⟨_, _, hsome⟩ := List.exists_of_findSome?_eq_some h
  obtain ⟨text, htext, -⟩ := Option.map_eq_some_iff.mp hsome
  exact isElement_of_marked? htext

/-- Which directive applies depends on the content of the element only. -/
theorem Chosen.congr {regs : List (String × Handler σ)} {s s' : Surface (Listener σ)} {i : Nat}
    {name : String} {handler : Handler σ} {text : String}
    (hcontent : s'.content? i = s.content? i) (h : Chosen regs s i name handler text) :
    Chosen regs s' i name handler text := by
  have hmarked : s'.marked? i = s.marked? i := by
    funext name
    unfold marked? attributeValue content
    rw [hcontent]
  exact ⟨by rw [hmarked]; exact h.first, by rw [hmarked]; exact h.text, h.last⟩

end Page

end ReactiveView
