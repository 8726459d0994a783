import ReactiveView.Proofs.Page.Item
/-!
# Repeats expanded

Compiling the document of a list takes the item out of the list, appends a copy for each member of
the data at `items`, and compiles the list again, item by item. So the compilation comes down to the
bindings of the copies, in order, on a document in which all copies stand with their texts. The walk
that set it off comes back to places that are done, and adds nothing.

Results:
* `appendCopies_rows`: the copies stand in the list in order.
* `compile_repeat`: compiling the document is binding its items.
* `compile_repeatPage`: the page once it is compiled.
-/
namespace ReactiveView.Page

open Run Template

variable {σ : Type} {p p' : Page σ}

/-! ## Compiling the list -/

/-- A child compiled, if it is still in place. -/
def compileChild (run : Program σ → Run (Page σ) Value) (depth node child : Nat) :
    Run (Page σ) Unit := do
  let parent ← askSurface fun s => s.parent child
  if parent = some node then compileNode run depth child else pure ()

/-- Without directives of its own, a page has those that repeat and bind both ways. -/
theorem withBuiltins_nil : Registry.withBuiltins ([] : Registry σ)
    = [("vm-repeat", .repeated), ("vm-model", .model)] := by
  rfl

/-- No directive applies to an element without an attribute for one. -/
theorem applicable?_eq_none (hregistry : p.registry = Registry.withBuiltins []) {node : Nat}
    {tag : String} {as : Entries String} (hnode : p.surface.content? node = some (.element tag as))
    (hrepeat : Entries.get? as "vm-repeat" = none) (hmodel : Entries.get? as "vm-model" = none) :
    p.applicable? node = none := by
  have hvalue : ∀ name, p.surface.attributeValue node name = .ok (Entries.get? as name) :=
    fun name => by rw [Surface.attributeValue, Surface.content_of_content? hnode]; rfl
  simp only [applicable?, hregistry, withBuiltins_nil, List.findSome?_cons, List.findSome?_nil,
    hvalue, hrepeat, hmodel]

/-- An element without directives is compiled by what it interpolates and by its children. -/
theorem compileNode_of_plain (hregistry : p.registry = Registry.withBuiltins []) {node : Nat}
    {tag : String} {as : Entries String} (hnode : p.surface.content? node = some (.element tag as))
    (hrepeat : Entries.get? as "vm-repeat" = none) (hmodel : Entries.get? as "vm-model" = none)
    (run : Program σ → Run (Page σ) Value) (depth : Nat) :
    compileNode run (depth + 1) node p = (interpolate run node >>= fun _ =>
      askSurface (fun s => s.children node) >>= fun children =>
        children.forM (compileChild run depth node)) p := by
  have happly : applyDirective run (compileNode run depth) node p = .done false p := by
    have hlook : Run.look (fun p : Page σ => p.applicable? node) p = .done none p := by
      rw [Run.look, applicable?_eq_none hregistry hnode hrepeat hmodel]
    exact bind_of_done hlook
  unfold compileNode
  rw [askSurface_bind (Surface.content_of_content? hnode)]
  exact bind_of_done happly

/-- Nothing is bound in an element whose content is no interpolation. -/
theorem interpolate_of_none {node : Nat} {markup : String}
    (hmarkup : p.surface.innerMarkup node = .ok markup)
    (hnone : Template.interpolation? markup = none) (run : Program σ → Run (Page σ) Value) :
    interpolate run node p = .done () p := by
  unfold interpolate
  rw [askSurface_bind hmarkup, hnone]
  rfl

/-- An element that holds elements only is compiled by its children. -/
theorem compileNode_of_elements (hregistry : p.registry = Registry.withBuiltins []) {node : Nat}
    {tag : String} {as : Entries String} (hnode : p.surface.content? node = some (.element tag as))
    (hrepeat : Entries.get? as "vm-repeat" = none) (hmodel : Entries.get? as "vm-model" = none)
    (hchildren : ∀ c ∈ p.surface.forest.children node, p.surface.IsElement c)
    (run : Program σ → Run (Page σ) Value) (depth : Nat) :
    compileNode run (depth + 1) node p
      = (p.surface.forest.children node).forM (compileChild run depth node) p := by
  obtain ⟨markup, hmarkup, hnone⟩ := Surface.interpolation?_of_elements ⟨tag, as, hnode⟩ hchildren
  rw [compileNode_of_plain hregistry hnode hrepeat hmodel,
    bind_of_done (interpolate_of_none hmarkup hnone run),
    askSurface_bind (Surface.children_of_content? hnode)]

theorem compileChild_of_mem (hs : p.surface.Sound) {node child : Nat}
    (hmem : child ∈ p.surface.forest.children node) (run : Program σ → Run (Page σ) Value)
    (depth : Nat) : compileChild run depth node child p = compileNode run depth child p := by
  unfold compileChild
  rw [askSurface_bind (Surface.parent_of_mem_children hs hmem), if_pos rfl]

/-- Compiling an item binds it. The text below it is passed over. -/
theorem compileChild_item (hregistry : p.registry = Registry.withBuiltins [])
    {front back : List (Nat × String)} {node : Nat} {s : Segment} {t : String}
    (h : p.surface.Lists (front ++ (node, itemTextOf s) :: back))
    {run : Program σ → Run (Page σ) Value} (hbind : bindItem run (node, s) p = .done () p')
    (h' : p'.surface.Lists (front ++ (node, t) :: back)) (depth : Nat) :
    compileChild run (depth + 2) 2 node p = .done () p' := by
  have hmem : (node, itemTextOf s) ∈ front ++ (node, itemTextOf s) :: back := by simp
  have hmem' : (node, t) ∈ front ++ (node, t) :: back := by simp
  have hitem := h.item _ hmem
  have hchild : node ∈ p.surface.forest.children 2 := by
    rw [h.children]
    exact List.mem_map.mpr ⟨_, hmem, rfl⟩
  obtain ⟨-, c, hchildren, hc⟩ := h'.shows _ hmem'
  have htext : compileNode run (depth + 1) c p' = .done () p' := by
    unfold compileNode
    rw [askSurface_bind (Surface.content_of_content? hc)]
    rfl
  have hbelow : compileChild run (depth + 1) node c p' = .done () p' := by
    rw [compileChild_of_mem h'.sound (by rw [hchildren]; exact List.mem_cons_self), htext]
  have hinterpolate : interpolate run node p = .done () p' :=
    (interpolate_item (h.shows _ hmem) run).trans hbind
  rw [compileChild_of_mem h.sound hchild, compileNode_of_plain hregistry hitem rfl rfl,
    bind_of_done hinterpolate, askSurface_bind (Surface.children_of_content? (h'.item _ hmem')),
    hchildren]
  exact bind_of_done hbelow

/-- Compiling the items of a list binds them in order. -/
theorem forM_compileChild (hnamed : Named p) (hregistry : p.registry = Registry.withBuiltins [])
    {v : Value} (hv : p.data.field? "items" = some v) {front : List (Nat × String)}
    {todo : List (Nat × Segment)} (hs : ∀ x ∈ todo, Accessible x.2)
    (h : p.surface.Lists (front ++ todo.map fun x => (x.1, itemTextOf x.2)))
    (run : Program σ → Run (Page σ) Value) (depth : Nat) :
    (todo.map (·.1)).forM (compileChild run (depth + 2) 2) p = todo.forM (bindItem run) p := by
  induction todo generalizing front p with
  | nil => rfl
  | cons x rest ih =>
    obtain ⟨surface, graph, hbind, hlists, hshape, -⟩ :=
      bindItem_done hnamed h hv (hs x List.mem_cons_self) run
    have hrest : surface.Lists ((front ++ [(x.1, shownText v x.2)])
        ++ rest.map fun x => (x.1, itemTextOf x.2)) := by
      rw [List.append_assoc]
      exact hlists
    have hchild := compileChild_item hregistry h hbind hlists depth
    have htail := ih (hnamed.keeps hlists.sound hshape) hregistry hv
      (fun y hy => hs y (List.mem_cons_of_mem _ hy)) hrest
    have hhead : (x :: rest).forM (bindItem run) p
        = rest.forM (bindItem run) { p with surface, graph } := bind_of_done hbind
    rw [hhead, ← htail]
    exact bind_of_done hchild

/-- Compiling a list binds its items in order. -/
theorem compileNode_list (hnamed : Named p) (hregistry : p.registry = Registry.withBuiltins [])
    {v : Value} (hv : p.data.field? "items" = some v) {todo : List (Nat × Segment)}
    (hs : ∀ x ∈ todo, Accessible x.2)
    (h : p.surface.Lists (todo.map fun x => (x.1, itemTextOf x.2)))
    (run : Program σ → Run (Page σ) Value) (depth : Nat) :
    compileNode run (depth + 3) 2 p = todo.forM (bindItem run) p := by
  have hchildren : p.surface.forest.children 2 = todo.map (·.1) := by
    rw [h.children, List.map_map]
    rfl
  have helements : ∀ c ∈ p.surface.forest.children 2, p.surface.IsElement c := by
    intro c hc
    rw [h.children] at hc
    obtain ⟨x, hx, rfl⟩ := List.mem_map.mp hc
    exact ⟨"li", [], h.item x hx⟩
  rw [compileNode_of_elements hregistry h.list rfl rfl helements, hchildren]
  exact @forM_compileChild _ p hnamed hregistry v hv [] todo hs h run depth

/-! ## Expanding the repeat -/

/-- The markup of a list item is read back. -/
theorem read_write_row {t : List Char} (ht : t ≠ []) :
    Markup.read (Markup.write [row t]) = .ok [row t] := by
  have hchars : "li".toList = ['l', 'i'] := rfl
  have hname : Markup.IsName "li" := by
    refine ⟨by rw [hchars]; nofun, ?_, by decide⟩
    rw [hchars, List.forall_mem_cons, List.forall_mem_singleton]
    decide
  have htag : Markup.IsTag "li" := by
    refine ⟨hname, ?_⟩
    rw [hchars]
    rintro c ⟨⟩
    decide
  have htext : Markup.Sound Markup.Spread (.text (String.ofList t)) :=
    .text (by rwa [String.toList_ofList])
  have hrow : Markup.Sound Markup.Spread (row t) :=
    .element htag ⟨nofun, List.nodup_nil⟩ (fun h => absurd h (by decide)) ⟨nofun, trivial⟩
      (List.forall_mem_singleton.mpr htext)
  exact Markup.read_write (List.forall_mem_singleton.mpr hrow) ⟨nofun, trivial⟩

/-- The markup of an item becomes an item at the end of the list. -/
theorem appendMarkup_row {items : List (Nat × String)} (h : p.surface.Lists items)
    {t : List Char} (ht : t ≠ []) : appendMarkup 2 (Markup.write [row t]) p
      = .done [p.surface.size] { p with surface := p.surface.addItem 2 (String.ofList t) } := by
  have hfragment : p.surface.apply (.fragment (Markup.write [row t]))
      = (.ok [p.surface.size], p.surface.pushItem (String.ofList t)) := by
    simp only [Surface.apply, Surface.parseFragment, read_write_row ht, Except.map,
      Surface.insertAll, Surface.insert_row]
  have happend : (p.surface.pushItem (String.ofList t)).apply (.append 2 p.surface.size)
      = (.ok (), p.surface.addItem 2 (String.ofList t)) := by
    simp only [Surface.apply, Surface.append_pushItem h.sound h.isElement, Surface.settle]
  have hpushed : editSurface (.fragment (Markup.write [row t])) p
      = .done [p.surface.size] { p with surface := p.surface.pushItem (String.ofList t) } :=
    editSurface_done hfragment
  have hadded : editSurface (.append 2 p.surface.size)
      { p with surface := p.surface.pushItem (String.ofList t) }
      = .done () { p with surface := p.surface.addItem 2 (String.ofList t) } :=
    editSurface_done happend
  unfold appendMarkup
  refine (bind_of_done hpushed).trans ?_
  exact bind_of_done ((bind_of_done hadded).trans rfl)

/-- The copies for members are appended to the list in order, each with an accessor in its text. -/
theorem appendCopies_rows {items : List (Nat × String)} (h : p.surface.Lists items)
    (segments : List Segment) :
    ∃ (surface : Surface (Listener σ)) (todo : List (Nat × Segment)),
      appendCopies 2 [row (rowText "item".toList)] "item"
          (segments.map (accessor "items".toList)) p
        = .done (todo.map (·.1)) { p with surface } ∧ todo.map (·.2) = segments ∧
      surface.Lists (items ++ todo.map fun x => (x.1, itemTextOf x.2)) := by
  induction segments generalizing items p with
  | nil => exact ⟨p.surface, [], rfl, rfl, by rwa [List.map_nil, List.append_nil]⟩
  | cons s rest ih =>
    have htext : rowText (accessor "items".toList s) ≠ [] := List.cons_ne_nil _ _
    have hadded := h.addItem (itemTextOf s)
    obtain ⟨surface, todo, hrun, htodo, hlists⟩ :=
      @ih { p with surface := p.surface.addItem 2 (itemTextOf s) } _ hadded
    refine ⟨surface, (p.surface.size, s) :: todo, ?_, by rw [List.map_cons, htodo], ?_⟩
    · have hlook : Run.look (fun p : Page σ => p.registry) p = .done p.registry p := rfl
      rw [List.map_cons, appendCopies]
      refine (bind_of_done hlook).trans ?_
      rw [substituteAll_row]
      exact (bind_of_done (appendMarkup_row h htext)).trans (bind_of_done hrun)
    · rw [List.append_assoc] at hlists
      exact hlists

/-- A repeat takes its item out, appends a copy for each member, and compiles the list. -/
theorem expandRepeat_list (hs : p.surface.Sound) (h : p.surface.Hosts)
    (hitem : p.surface.content? 3 = some (.element "li" []))
    (hshows : p.surface.ShowsText 3 Surface.itemText) (hchild : p.surface.forest.children 2 = [3])
    {v : Value} (hv : p.data.field? "items" = some v) (run : Program σ → Run (Page σ) Value)
    (compile : Nat → Run (Page σ) Unit) :
    ∃ (surface : Surface (Listener σ)) (todo : List (Nat × Segment)),
      expandRepeat run compile 3 "item in items" p = compile 2 { p with surface } ∧
      todo.map (·.2) = v.members.map (·.1) ∧
      surface.Lists (todo.map fun x => (x.1, itemTextOf x.2)) := by
  have hrepeat : readRepeat "item in items" = .ok ("item", "items") :=
    eq_ok_of_toOption (by decide +kernel)
  have hparent : p.surface.parent 3 = .ok (some 2) :=
    Surface.parent_of_mem_children hs (by rw [hchild]; exact List.mem_cons_self)
  have hmarkup : p.surface.outerMarkup 3
      = .ok (Markup.write [row (rowText "item".toList)]) := by
    rw [Surface.outerMarkup, Surface.content_of_content? hitem,
      Surface.fragments_of_showsText hitem hshows]
    rfl
  obtain ⟨emptied, hclear, hlists⟩ := Surface.clear_list hs h
  have hcleared : editSurface (.clear 2) p = .done () { p with surface := emptied } :=
    editSurface_done (by simp only [Surface.apply, hclear, Surface.settle])
  have hmembers : evaluate run "items" .page { p with surface := emptied }
      = .done v { p with surface := emptied } :=
    @evaluate_items σ { p with surface := emptied } v hv run
  have htemplate : Markup.read (Markup.write [row (rowText "item".toList)])
      = .ok [row (rowText "item".toList)] := read_write_row (List.cons_ne_nil _ _)
  have haccessors : accessors "items" v
      = (v.members.map (·.1)).map (accessor "items".toList) := by
    rw [accessors, List.map_map]
    rfl
  obtain ⟨surface, todo, hcopies, htodo, hlisted⟩ :=
    @appendCopies_rows σ { p with surface := emptied } [] hlists (v.members.map (·.1))
  rw [List.nil_append] at hlisted
  refine ⟨surface, todo, ?_, htodo, hlisted⟩
  unfold expandRepeat
  rw [hrepeat]
  refine (askSurface_bind hparent _).trans ?_
  refine (askSurface_bind hmarkup _).trans ?_
  refine (bind_of_done hcleared).trans ?_
  refine (bind_of_done hmembers).trans ?_
  rw [htemplate, haccessors]
  refine (bind_of_done hcopies).trans ?_
  exact @askSurface_bind σ { p with surface } _ _ (fun s => s.content 2) _
    (Surface.content_of_content? hlisted.list) _

/-- The repeat applies to the item of the document. -/
theorem applicable?_repeat (hsurface : p.surface = Surface.repeatSurface)
    (hregistry : p.registry = Registry.withBuiltins []) :
    p.applicable? 3 = some ("vm-repeat", .repeated, "item in items") := by
  have hvalue : p.surface.attributeValue 3 "vm-repeat" = .ok (some "item in items") := by
    rw [hsurface]
    rfl
  have hfull : (Text.trim "item in items".toList).isEmpty = false := by decide +kernel
  simp only [applicable?, hregistry, withBuiltins_nil, List.findSome?_cons, hvalue, hfull]
  rfl

/-- Compiling the item of the document takes it out, and binds the copies for the members in
order. -/
theorem compileNode_repeat (hsurface : p.surface = Surface.repeatSurface) (hnamed : Named p)
    (hregistry : p.registry = Registry.withBuiltins []) {v : Value}
    (hv : p.data.field? "items" = some v) (hs : ∀ m ∈ v.members, Accessible m.1)
    (run : Program σ → Run (Page σ) Value) (depth : Nat) :
    ∃ (surface : Surface (Listener σ)) (todo : List (Nat × Segment)),
      todo.map (·.2) = v.members.map (·.1) ∧
      surface.Lists (todo.map fun x => (x.1, itemTextOf x.2)) ∧
      ∀ p', todo.forM (bindItem run) { p with surface } = .done () p' →
        compileNode run (depth + 4) 3 p = .done () p' := by
  obtain ⟨plain, hremove, hsound, hhosts, hitem, hshows, hchild⟩ :=
    Surface.removeAttribute_repeatSurface (ℓ := Listener σ)
  obtain ⟨surface, todo, hexpand, htodo, hlists⟩ :=
    @expandRepeat_list σ { p with surface := plain } hsound hhosts hitem hshows hchild v hv run
      (compileNode run (depth + 3))
  refine ⟨surface, todo, htodo, hlists, fun p' hbinds => ?_⟩
  have haccessible : ∀ x ∈ todo, Accessible x.2 := by
    intro x hx
    have hmem : x.2 ∈ v.members.map (·.1) := htodo ▸ List.mem_map.mpr ⟨x, hx, rfl⟩
    obtain ⟨m, hm, heq⟩ := List.mem_map.mp hmem
    exact heq ▸ hs m hm
  have hcompiled : compileNode run (depth + 3) 2 { p with surface } = .done () p' := by
    have hnamed' : Named { p with surface } := hnamed.withSurface hlists.sound
    exact (compileNode_list hnamed' hregistry hv haccessible hlists run depth).trans hbinds
  have hlook : Run.look (fun p : Page σ => p.applicable? 3) p
      = .done (some ("vm-repeat", .repeated, "item in items")) p := by
    rw [Run.look, applicable?_repeat hsurface hregistry]
  have hedit : editSurface (.removeAttribute 3 "vm-repeat") p
      = .done () { p with surface := plain } :=
    editSurface_done (by simp only [Surface.apply, hsurface, hremove, Surface.settle])
  have happly : applyDirective run (compileNode run (depth + 3)) 3 p = .done true p' := by
    refine (bind_of_done hlook).trans ((bind_of_done hedit).trans ?_)
    exact bind_of_done (hexpand.trans hcompiled)
  have hcontent : p.surface.content 3 = .ok (.element "li" [("vm-repeat", "item in items")]) := by
    rw [hsurface]
    rfl
  unfold compileNode
  rw [askSurface_bind hcontent]
  exact bind_of_done happly

/-- Compiling the document repeats its item, and then binds the items for the members in order. -/
theorem compile_repeat (hsurface : p.surface = Surface.repeatSurface) (hnamed : Named p)
    (hregistry : p.registry = Registry.withBuiltins []) {v : Value}
    (hv : p.data.field? "items" = some v) (hs : ∀ m ∈ v.members, Accessible m.1)
    (run : Program σ → Run (Page σ) Value) {depth : Nat} (hdepth : 6 ≤ depth) :
    ∃ (surface : Surface (Listener σ)) (todo : List (Nat × Segment)),
      todo.map (·.2) = v.members.map (·.1) ∧
      surface.Lists (todo.map fun x => (x.1, itemTextOf x.2)) ∧
      ∀ p', todo.forM (bindItem run) { p with surface } = .done () p' →
        compile run depth (.selector "#app") p = .done () p' := by
  obtain ⟨d, rfl⟩ : ∃ d, depth = d + 6 := ⟨depth - 6, by omega⟩
  obtain ⟨surface, todo, htodo, hlists, hrun⟩ :=
    compileNode_repeat hsurface hnamed hregistry hv hs run d
  refine ⟨surface, todo, htodo, hlists, fun p' hbinds => ?_⟩
  have hsound : p.surface.Sound := hsurface ▸ Surface.sound_repeatSurface
  have hhosts : p.surface.Hosts := hsurface ▸ Surface.hosts_repeatSurface
  have hchild : p.surface.forest.children 2 = [3] := by
    rw [hsurface]
    rfl
  have hitem : p.surface.content? 3 = some (.element "li" [("vm-repeat", "item in items")]) := by
    rw [hsurface]
    rfl
  have hone : ∀ {node : Nat} {f : Nat → Run (Page σ) Unit}, f node p = .done () p' →
      [node].forM f p = .done () p' := bind_of_done
  have hlist : compileNode run (d + 5) 2 p = .done () p' := by
    rw [compileNode_of_elements hregistry hhosts.list rfl rfl
      (by rw [hchild]; exact List.forall_mem_singleton.mpr ⟨_, _, hitem⟩), hchild]
    refine hone ((compileChild_of_mem hsound (by rw [hchild]; exact List.mem_cons_self)
      run (d + 4)).trans (hrun p' hbinds))
  have hmain : compileNode run (d + 6) 1 p = .done () p' := by
    rw [compileNode_of_elements hregistry hhosts.main rfl rfl
      (by rw [hhosts.mainChildren]; exact List.forall_mem_singleton.mpr hhosts.isElement),
      hhosts.mainChildren]
    refine hone ((compileChild_of_mem hsound
      (by rw [hhosts.mainChildren]; exact List.mem_cons_self) run (d + 5)).trans hlist)
  exact (askSurface_bind hhosts.find_main _).trans hmain

/-- A page with a list that repeats its item, before it is compiled. -/
def repeatPage (options : Options σ) (scopes : Entries Value) (host : σ) : Page σ :=
  assemble options (Registry.withBuiltins []) scopes Surface.repeatSurface host

/-- Compiling the page succeeds, and leaves an item for each member, in order. -/
theorem compile_repeatPage {options : Options σ} {v : Value}
    (hv : options.data.field? "items" = some v) (hs : ∀ m ∈ v.members, Accessible m.1)
    (scopes : Entries Value) (host : σ) (run : Program σ → Run (Page σ) Value) {depth : Nat}
    (hdepth : 6 ≤ depth) : ∃ (surface : Surface (Listener σ)) (graph : Graph (Observer σ))
      (items : List (Nat × Segment)),
      compile run depth (.selector "#app") (repeatPage options scopes host)
        = .done () { repeatPage options scopes host with surface, graph } ∧
      items.map (·.2) = v.members.map (·.1) ∧
      surface.Lists (items.map fun x => (x.1, shownText v x.2)) ∧
      (repeatPage options scopes host).graph.SameShape graph ∧
      ∀ n o, o ∈ graph.observers n ↔ o ∈ (repeatPage options scopes host).graph.observers n ∨
        ∃ x ∈ items, Hears (repeatPage options scopes host).graph x n o := by
  have hnamed : Named (repeatPage options scopes host) :=
    .assemble options _ scopes Surface.sound_repeatSurface host
  obtain ⟨bare, todo, htodo, hlists, hcompile⟩ :=
    compile_repeat (p := repeatPage options scopes host) rfl hnamed rfl hv hs run hdepth
  have haccessible : ∀ x ∈ todo, Accessible x.2 := by
    intro x hx
    have hmem : x.2 ∈ v.members.map (·.1) := htodo ▸ List.mem_map.mpr ⟨x, hx, rfl⟩
    obtain ⟨m, hm, heq⟩ := List.mem_map.mp hmem
    exact heq ▸ hs m hm
  obtain ⟨surface, graph, hbinds, hshown, hshape, hobservers⟩ :=
    @forM_bindItem σ { repeatPage options scopes host with surface := bare }
      (hnamed.withSurface hlists.sound) v hv [] todo haccessible hlists run
  exact ⟨surface, graph, todo, hcompile _ hbinds, htodo, hshown, hshape, hobservers⟩

end ReactiveView.Page
