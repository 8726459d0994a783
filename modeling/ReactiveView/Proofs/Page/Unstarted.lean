import ReactiveView.Proofs.Page.Directives
import ReactiveView.Proofs.Page.Expansion
import ReactiveView.Proofs.Page.InPlace
import ReactiveView.Proofs.Surface.Attributes
import ReactiveView.Proofs.Template.Clause
/-!
# Repeats that do not start

A repeat reads its text, looks for the parent of its element, takes the children of the parent out,
and only then evaluates its collection. So a text that is no repeat and an element without a parent
are refused on a page that is as it was. A collection that is read from the data cannot fail; one
that starts with a computed property can, and the program of this property runs on a page without
the list. If it fails, the list stays out.

Results:
* `clear_empties`: what it is to take the children of a node out.
* `evaluate_eq_failed_iff`: only a computed property can fail to be read.
* `compileNode_of_unstarted`: compiling an element stops where its repeat does not start.
* `list_of_unstarted`: what is left of the list; `list_lost`: it may be nothing.
-/
namespace ReactiveView

namespace Surface

variable {ℓ : Type} {s : Surface ℓ} {i : Nat} {c : Content}

/-- The children of a node were taken out. They are what they were, with all that is below them, but
have no parent; everything else is where it was. -/
structure Empties (i : Nat) (s s' : Surface ℓ) : Prop where
  size : s'.size = s.size
  item : ∀ j, s'.forest.content? j = s.forest.content? j
  children : ∀ j, s'.forest.children j = if i = j then [] else s.forest.children j
  parent : ∀ j, s'.forest.parent? j = if j ∈ s.forest.children i then none else s.forest.parent? j

/-- The children of a node that is there can be taken out. -/
theorem clear_empties (hi : s.content? i = some c) :
    s.apply (.clear i) = (.ok (), ⟨s.forest.detachChildren i⟩) ∧
      Empties i s ⟨s.forest.detachChildren i⟩ := by
  refine ⟨?_, Forest.size_detachChildren i, Forest.content?_detachChildren i,
    Forest.children_detachChildren i, Forest.parent?_detachChildren i⟩
  rw [apply, clear, content_of_content? hi]
  rfl

end Surface

namespace Page

open Run Surface

variable {σ : Type} {run : Program σ → Run (Page σ) Value} {p q : Page σ} {node parent : Nat}
  {name source : String} {e : Error}

/-- The page with the children of a node taken out. -/
def emptied (p : Page σ) (i : Nat) : Page σ :=
  { p with surface := ⟨p.surface.forest.detachChildren i⟩ }

/-- The repeat of an element does not start: with which error, and the page that it leaves. -/
inductive Unstarted (run : Program σ → Run (Page σ) Value) (p : Page σ) (node : Nat)
    (source : String) : Error → Page σ → Prop
  /-- Its text is no repeat. -/
  | malformed {e : Error} (h : Template.readRepeat source = .error e) :
      Unstarted run p node source e p
  /-- Its element has no parent. -/
  | loose {item collection : String} (h : Template.readRepeat source = .ok (item, collection))
      (hparent : p.surface.forest.parent? node = none) :
      Unstarted run p node source
        (.handler Registry.repeatName "repeated element has no parent") p
  /-- Evaluating its collection fails. -/
  | unevaluated {item collection : String} {parent : Nat} {e : Error} {q : Page σ}
      (h : Template.readRepeat source = .ok (item, collection))
      (hparent : p.surface.forest.parent? node = some parent)
      (hfail : evaluate run collection .page (p.emptied parent) = .failed e q) :
      Unstarted run p node source e q

/-! ## Collections that cannot be evaluated -/

theorem exists_collection {item collection : String}
    (h : Template.readRepeat source = .ok (item, collection)) :
    ∃ e, Expression.read collection = .ok e ∧ e.isCall = false := by
  obtain ⟨_, _, hclause⟩ := Template.exists_clause (Template.readRepeat_eq_ok_iff.mp h)
  rw [← String.ofList_toList (s := collection)]
  exact hclause.expression

/-- Looking a name up fails only where the program of a computed property of this name does. -/
theorem lookup_eq_failed_iff {key : String} : lookup run key p = .failed e q ↔
    p.data.field? key = none ∧ ∃ program, p.computed key = some program ∧
      run program p = .failed e q := by
  rw [lookup, look_bind]
  cases hfield : p.data.field? key with
  | some v =>
    refine iff_of_false (fun h => ?_) fun h => ?_
    · cases h
    · cases h.1
  | none =>
    dsimp only
    rw [look_bind]
    cases hcomputed : p.computed key with
    | none =>
      refine iff_of_false (fun h => ?_) fun h => ?_
      · cases h
      · obtain ⟨-, program, hprogram, -⟩ := h
        cases hprogram
    | some program =>
      constructor
      · intro h
        rcases bind_eq_failed h with h | ⟨v, q, -, h⟩
        · exact ⟨rfl, program, rfl, h⟩
        · cases h
      · rintro ⟨-, _, ⟨⟩, hrun⟩
        exact bind_of_failed hrun

/-- An expression that is no call fails to be evaluated only where the program of a computed
property fails, the one with which it starts. -/
theorem evaluate_eq_failed_iff {collection : String} {expression : Expression}
    (hread : Expression.read collection = .ok expression) (hcall : expression.isCall = false) :
    evaluate run collection .page p = .failed e q ↔ p.data.field? expression.head = none ∧
      ∃ program, p.computed expression.head = some program ∧ run program p = .failed e q := by
  rw [← lookup_eq_failed_iff, evaluate, hread]
  have hnames : (Run.ofExcept (.ok expression) >>= fun e => e.evaluate (names run .page)) p
      = expression.evaluate (names run .page) p := rfl
  rw [hnames, Expression.evaluate, if_neg (by simp [hcall])]
  constructor
  · intro h
    rcases bind_eq_failed h with h | ⟨found, q, -, h⟩
    · exact h
    · cases found with
      | none => cases h
      | some v => cases h
  · exact bind_of_failed

/-! ## Repeats that do not start -/

theorem content?_of_parent? (hs : Sound p.surface)
    (h : p.surface.forest.parent? node = some parent) :
    ∃ c, p.surface.content? parent = some c :=
  exists_content?_of_lt (Forest.lt_of_mem_children ((hs.linked.iff parent node).mpr h))

/-- The handler of a repeat stops where the repeat does not start. -/
theorem expandRepeat_of_unstarted (hs : Sound p.surface) (hi : p.surface.IsElement node)
    (h : Unstarted run p node source e q) (compile : Nat → Run (Page σ) Unit) :
    expandRepeat run compile node source p = .failed e q := by
  obtain ⟨tag, as, hi⟩ := hi
  have hcontent := content_of_content? hi
  unfold expandRepeat
  cases h with
  | malformed h =>
    rw [h]
    rfl
  | loose h hparent =>
    have hask : p.surface.parent node = .ok none := by
      rw [Surface.parent, hcontent, ← hparent]
      rfl
    rw [h]
    exact (askSurface_bind hask _).trans rfl
  | @unevaluated item collection parent e q h hparent hfail =>
    have hask : p.surface.parent node = .ok (some parent) := by
      rw [Surface.parent, hcontent, ← hparent]
      rfl
    have hmarkup : p.surface.outerMarkup node = .ok (Markup.write (p.surface.fragments node)) := by
      rw [Surface.outerMarkup, hcontent]
      rfl
    obtain ⟨c, hc⟩ := content?_of_parent? hs hparent
    have hclear : editSurface (.clear parent) p = .done () (p.emptied parent) :=
      editSurface_done (clear_empties hc).1
    rw [h]
    refine (askSurface_bind hask _).trans ?_
    refine (askSurface_bind hmarkup _).trans ?_
    exact (bind_of_done hclear).trans (bind_of_failed hfail)

/-- Compiling an element stops where its repeat does not start. Before that, no more is done than to
take the attribute away. -/
theorem compileNode_of_unstarted {p₀ : Page σ} (hs : Sound p.surface)
    (happlies : p₀.applicable? node = some (name, .repeated, source))
    (hremove : editSurface (.removeAttribute node name) p₀ = .done () p)
    (h : Unstarted run p node source e q) (depth : Nat) :
    compileNode run (depth + 1) node p₀ = .failed e q ∧
      DropsAttribute node name p₀.surface p.surface := by
  have hi := isElement_of_applicable? happlies
  obtain ⟨surface, hremoved, hdrops⟩ := removeAttribute_drops hi name
  cases hremove.symm.trans (editSurface_done hremoved)
  obtain ⟨tag, as, hel⟩ := hi
  have hlook : Run.look (fun p : Page σ => p.applicable? node) p₀
      = .done (some (name, .repeated, source)) p₀ := by rw [Run.look, happlies]
  have hexpand := expandRepeat_of_unstarted hs (hdrops.tree.isElement ⟨tag, as, hel⟩) h
    (compileNode run depth)
  have happly : applyDirective run (compileNode run depth) node p₀ = .failed e q := by
    refine (bind_of_done hlook).trans ((bind_of_done hremove).trans ?_)
    exact bind_of_failed hexpand
  refine ⟨?_, hdrops⟩
  unfold compileNode
  rw [askSurface_bind (content_of_content? hel)]
  exact bind_of_failed happly

/-- What is left of a list whose repeat does not start. The handler fails, and so does compiling the
element, after the attribute has been taken away. A text that is no repeat and an element without a
parent are refused before anything is changed. Otherwise the collection starts with a computed
property whose program failed, after the children of the parent had been taken out and before
anything else was done; the page is left as this program left it. -/
theorem list_of_unstarted (hreached : p.surface.Reached) (hi : p.surface.IsElement node)
    (h : Unstarted run p node source e q) :
    (∀ compile, handle run compile .repeated node source p = .failed e q) ∧
    (∀ p₀ name depth, p₀.applicable? node = some (name, .repeated, source) →
      editSurface (.removeAttribute node name) p₀ = .done () p →
      compileNode run (depth + 1) node p₀ = .failed e q ∧
        ∀ i, p.surface.forest.children i = p₀.surface.forest.children i) ∧
    ((¬∃ clause, Template.readRepeat source = .ok clause) ∨
      p.surface.forest.parent? node = none → q = p) ∧
    ∀ item collection parent, Template.readRepeat source = .ok (item, collection) →
      p.surface.forest.parent? node = some parent →
      Empties parent p.surface (p.emptied parent).surface ∧ ∃ expression program,
        Expression.read collection = .ok expression ∧ p.data.field? expression.head = none ∧
        p.computed expression.head = some program ∧
        run program (p.emptied parent) = .failed e q := by
  have hs := sound_of_reached hreached
  refine ⟨fun compile => ?_, fun p₀ name depth happlies hremove => ?_, fun hrefused => ?_,
    fun item collection parent hread hparent => ?_⟩
  · exact bind_of_failed (expandRepeat_of_unstarted hs hi h compile)
  · obtain ⟨hfailed, hdrops⟩ := compileNode_of_unstarted hs happlies hremove h depth
    exact ⟨hfailed, hdrops.tree.children⟩
  · cases h with
    | malformed h => rfl
    | loose h hparent => rfl
    | unevaluated h hparent hfail =>
      rcases hrefused with hnot | hnone
      · exact absurd ⟨_, h⟩ hnot
      · rw [hparent] at hnone
        cases hnone
  · obtain ⟨c, hc⟩ := content?_of_parent? hs hparent
    refine ⟨(clear_empties hc).2, ?_⟩
    obtain ⟨expression, hexpression, hcall⟩ := exists_collection hread
    cases h with
    | malformed h =>
      rw [h] at hread
      cases hread
    | loose h hnone =>
      rw [hnone] at hparent
      cases hparent
    | unevaluated h hparent' hfail =>
      cases h.symm.trans hread
      cases hparent'.symm.trans hparent
      obtain ⟨hfield, program, hprogram, hrun⟩ :=
        (evaluate_eq_failed_iff hexpression hcall).mp hfail
      exact ⟨expression, program, hexpression, hfield, hprogram, hrun⟩

/-! ## A list whose collection fails -/

/-- A page with a list over a computed property that fails. -/
def lostPage : Page Unit :=
  assemble ⟨.record [], [], [("items", .fail (.callback "no"))], []⟩ (Registry.withBuiltins []) []
    repeatSurface ()

/-- The page once the attribute of its item is taken away. -/
def barePage : Page Unit :=
  { lostPage with surface := repeatSurface.mapContent 3 fun _ => .element "li" [] }

theorem editSurface_lostPage :
    editSurface (.removeAttribute 3 "vm-repeat") lostPage = .done () barePage :=
  editSurface_removeAttribute (p := lostPage) (i := 3) rfl "vm-repeat"

theorem reached_lostPage : lostPage.surface.Reached := reached_of_ofMarkup ofMarkup_repeatMarkup

theorem reached_barePage : barePage.surface.Reached :=
  .step reached_lostPage (.edit lostPage.surface (.removeAttribute 3 "vm-repeat"))

/-- Nothing but the computed property is there to be read. -/
theorem evaluate_items_failed {p : Page Unit} (hdata : p.data = .record [])
    (hcomputed : p.computed = lostPage.computed) :
    evaluate (interpret 1) "items" .page p = .failed (.callback "no") p := by
  refine (evaluate_eq_failed_iff read_items rfl).mpr ⟨?_, .fail (.callback "no"), ?_, rfl⟩
  · rw [hdata]
    rfl
  · rw [hcomputed]
    rfl

theorem readRepeat_items : Template.readRepeat "item in items" = .ok ("item", "items") :=
  eq_ok_of_toOption (by decide +kernel)

theorem unstarted_barePage : Unstarted (interpret 1) barePage 3 "item in items"
    (.callback "no") (barePage.emptied 2) :=
  .unevaluated readRepeat_items rfl (evaluate_items_failed rfl rfl)

/-- The program of the computed property does nothing but fail, and the list has no item left. A
text that is no repeat leaves it there. -/
theorem list_of_unstarted_items : barePage.surface.Reached ∧ barePage.surface.IsElement 3 ∧
    Unstarted (interpret 1) barePage 3 "item in items" (.callback "no") (barePage.emptied 2) ∧
    handle (interpret 1) (compileNode (interpret 1) 1) .repeated 3 "item in items" barePage
      = .failed (.callback "no") (barePage.emptied 2) ∧
    (barePage.emptied 2).surface.forest.children 2 = [] ∧
    Unstarted (interpret 1) barePage 3 "item of items" (.malformedRepeat "item of items") barePage ∧
    barePage.surface.forest.children 2 = [3] := by
  have hitem : barePage.surface.IsElement 3 := ⟨"li", [], rfl⟩
  obtain ⟨hhandle, -, -, hlist⟩ := list_of_unstarted reached_barePage hitem unstarted_barePage
  obtain ⟨hempties, -⟩ := hlist "item" "items" 2 readRepeat_items rfl
  have hmalformed :
      Template.readRepeat "item of items" = .error (.malformedRepeat "item of items") :=
    eq_error_of_errorOf? (by decide +kernel)
  exact ⟨reached_barePage, hitem, unstarted_barePage, hhandle _,
    (hempties.children 2).trans (if_pos rfl), .malformed hmalformed, rfl⟩

/-- Evaluating the collection of a list fails without changing anything, and compiling the list
fails with its error; but the list has lost its item. -/
theorem list_lost : lostPage.surface.Reached ∧ lostPage.surface.forest.children 2 = [3] ∧
    lostPage.applicable? 3 = some ("vm-repeat", .repeated, "item in items") ∧
    evaluate (interpret 1) "items" .page lostPage = .failed (.callback "no") lostPage ∧
    ∃ q, compile (interpret 1) 2 (.node 2) lostPage = .failed (.callback "no") q ∧
      q.surface.forest.children 2 = [] := by
  have happlies := @applicable?_repeat Unit lostPage rfl rfl
  have hsound : lostPage.surface.Sound := sound_of_reached reached_lostPage
  obtain ⟨hitem, -⟩ := compileNode_of_unstarted (sound_of_reached reached_barePage) happlies
    editSurface_lostPage unstarted_barePage 0
  refine ⟨reached_lostPage, rfl, happlies, evaluate_items_failed rfl rfl, barePage.emptied 2, ?_,
    rfl⟩
  have hlist : compile (interpret 1) 2 (.node 2) lostPage
      = [3].forM (compileChild (interpret 1) 1 2) lostPage := by
    have hnode : lostPage.surface.content? 2 = some (.element "ul" []) := rfl
    refine compileNode_of_elements rfl hnode rfl rfl (fun c hc => ?_) _ 1
    cases List.mem_singleton.mp hc
    exact ⟨"li", _, rfl⟩
  have hmem : 3 ∈ lostPage.surface.forest.children 2 := List.mem_singleton_self 3
  have hchild := compileChild_of_mem hsound hmem (interpret 1) 1
  exact hlist.trans (bind_of_failed (hchild.trans hitem))

end Page

end ReactiveView
