import Mathlib.Data.List.Nodup
import ReactiveView.Proofs.Surface.Shows
import ReactiveView.Proofs.Template.Repeat
/-!
# Lists on a surface

A document that holds a list, from its markup on: the item that is to be repeated is taken out,
items are added at the end, each with a text, and the texts are written over. Whatever is done to
one item leaves the document and the other items as they are, which is what `Lists` says: it holds
of the list as a whole, with the texts that the items show.

Results:
* `ofMarkup_repeatMarkup`: the document before its item is repeated.
* `Lists.addItem`, `Lists.setText`: an item more, and the text of an item.
* `Lists.find_list`: the list is found in the document.
-/
namespace ReactiveView

namespace Surface

variable {ℓ : Type} {s s' : Surface ℓ}

/-! ## A new item -/

/-- The surface with an item more, outside the document. -/
def pushItem (s : Surface ℓ) (t : String) : Surface ℓ :=
  ((s.push (.element "li" [])).push (.text t)).attach s.size (s.size + 1)

/-- The surface with an item more at the end of a list. -/
def addItem (s : Surface ℓ) (list : Nat) (t : String) : Surface ℓ :=
  (s.pushItem t).attach list s.size

theorem insert_row (s : Surface ℓ) (t : List Char) :
    s.insert (Template.row t) = s.pushItem (String.ofList t) := by
  simp only [Template.row, insert, insertUnder, size_push, pushItem]

@[simp] theorem size_pushItem (t : String) : (s.pushItem t).size = s.size + 2 := by
  simp [pushItem]

theorem content?_pushItem (t : String) (i : Nat) : (s.pushItem t).content? i
    = if i = s.size + 1 then some (.text t) else if i = s.size then some (.element "li" [])
      else s.content? i := by
  rw [pushItem, content?_attach, content?_push, content?_push, size_push]

theorem content?_addItem (list : Nat) (t : String) (i : Nat) : (s.addItem list t).content? i
    = if i = s.size + 1 then some (.text t) else if i = s.size then some (.element "li" [])
      else s.content? i := by
  rw [addItem, content?_attach, content?_pushItem]

theorem parent?_pushItem (t : String) (i : Nat) : (s.pushItem t).forest.parent? i
    = if s.size + 1 = i then some s.size else s.forest.parent? i := by
  have hsize : s.size + 1 < ((s.push (.element "li" [])).push (.text t)).forest.size := by
    show _ < ((s.push (.element "li" [])).push (.text t)).size
    simp
  rw [pushItem, attach, Forest.parent?_attach hsize]
  simp [push]

theorem sound_pushItem (hs : Sound s) (t : String) : Sound (s.pushItem t) := by
  have h := insert_sound s hs (Template.row t.toList)
  rw [insert_row, String.ofList_toList] at h
  exact h.1

theorem children_pushItem (hs : Sound s) (t : String) (i : Nat) : (s.pushItem t).forest.children i
    = if i = s.size then [s.size + 1] else s.forest.children i := by
  have hlinked := (sound_push (sound_push hs (.element "li" [])) (.text t)).linked
  have hold : ∀ i, ((s.push (.element "li" [])).push (.text t)).forest.children i
      = s.forest.children i := fun i => by simp only [push, Forest.children_push]
  have htop : ((s.push (.element "li" [])).push (.text t)).forest.parent? (s.size + 1) = none := by
    simp only [push, Forest.parent?_push]
    exact Forest.parent?_of_size_le (Nat.le_succ _)
  have hlt : s.size < ((s.push (.element "li" [])).push (.text t)).forest.size := by
    simp only [push, Forest.size_push, size]
    omega
  have hnil : s.forest.children s.size = [] := Forest.children_of_size_le (Nat.le_refl _)
  rw [pushItem, attach, Forest.children_attach_of_top hlinked hlt htop, hold]
  by_cases hi : s.size = i
  · subst hi
    rw [if_pos rfl, if_pos rfl, hnil]
    rfl
  · rw [if_neg hi, if_neg (Ne.symm hi)]

theorem children_addItem (hs : Sound s) {list : Nat} (hlist : list < s.size) (t : String)
    (i : Nat) : (s.addItem list t).forest.children i = if i = s.size then [s.size + 1]
      else if list = i then s.forest.children i ++ [s.size] else s.forest.children i := by
  have htop : (s.pushItem t).forest.parent? s.size = none := by
    rw [parent?_pushItem, if_neg (Nat.succ_ne_self _)]
    exact Forest.parent?_of_size_le (Nat.le_refl _)
  have hlt : list < (s.pushItem t).forest.size := by
    show list < (s.pushItem t).size
    rw [size_pushItem]
    omega
  rw [addItem, attach, Forest.children_attach_of_top (sound_pushItem hs t).linked hlt htop,
    children_pushItem hs]
  by_cases hi : i = s.size
  · subst hi
    simp only [if_neg (Nat.ne_of_lt hlist), if_true]
  · simp only [if_neg hi]

/-- A new item can be put at the end of any element. -/
theorem append_pushItem (hs : Sound s) {list : Nat} (hlist : s.IsElement list) (t : String) :
    (s.pushItem t).append list s.size = .ok (s.addItem list t) := by
  have hlt := hlist.lt
  have hfree : (s.pushItem t).forest.isAtOrAbove s.size list = false := by
    have hclosed : ∀ i p, i < s.size → (s.pushItem t).forest.parent? i = some p → p < s.size := by
      intro i p hi hp
      rw [parent?_pushItem, if_neg (by omega)] at hp
      exact Forest.lt_of_mem_children ((hs.linked.iff p i).mpr hp)
    have habove : s.size ∉ (s.pushItem t).forest.ancestors list := fun h =>
      Nat.lt_irrefl _ ((Forest.above_of_mem_ancestorsWithin h).lt_of_closed hclosed hlt)
    simp [Forest.isAtOrAbove, habove, Nat.ne_of_lt hlt]
  obtain ⟨tag, as, hel⟩ := hlist
  have hparent : (s.pushItem t).content? list = some (.element tag as) := by
    rw [content?_pushItem, if_neg (by omega), if_neg (by omega), hel]
  have hitem : (s.pushItem t).content? s.size = some (.element "li" []) := by
    rw [content?_pushItem, if_neg (by omega), if_pos rfl]
  simp only [append, hparent, hitem, hfree, Bool.false_eq_true, if_false]
  rfl

/-! ## Documents with a list -/

/-- A document with a list in an element of its own. -/
structure Hosts (s : Surface ℓ) : Prop where
  document : s.content? 0 = some .document
  main : s.content? 1 = some (.element "div" [("id", "app")])
  list : s.content? 2 = some (.element "ul" [])
  documentChildren : s.forest.children 0 = [1]
  mainChildren : s.forest.children 1 = [2]

/-- A document with a list, and the items of the list in order, each with the text that it shows. -/
structure Lists (s : Surface ℓ) (items : List (Nat × String)) : Prop extends Hosts s where
  sound : Sound s
  children : s.forest.children 2 = items.map (·.1)
  item : ∀ x ∈ items, s.content? x.1 = some (.element "li" [])
  shows : ∀ x ∈ items, s.ShowsText x.1 x.2

variable {items : List (Nat × String)}

theorem Hosts.isElement (h : Hosts s) : s.IsElement 2 := ⟨"ul", [], h.list⟩

theorem Hosts.keeps (h : Hosts s) (hcontent : ∀ i < 3, s'.content? i = s.content? i)
    (hchildren : ∀ i < 2, s'.forest.children i = s.forest.children i) : Hosts s' where
  document := (hcontent 0 (by decide)).trans h.document
  main := (hcontent 1 (by decide)).trans h.main
  list := (hcontent 2 (by decide)).trans h.list
  documentChildren := (hchildren 0 (by decide)).trans h.documentChildren
  mainChildren := (hchildren 1 (by decide)).trans h.mainChildren

theorem Lists.ne_list (h : Lists s items) {x : Nat × String} (hx : x ∈ items) : x.1 ≠ 2 := by
  intro heq
  have hitem := h.item x hx
  rw [heq, h.list] at hitem
  exact absurd hitem (by decide)

/-- A new item at the end of the list. -/
theorem Lists.addItem (h : Lists s items) (t : String) :
    Lists (s.addItem 2 t) (items ++ [(s.size, t)]) := by
  have hlt := h.isElement.lt
  have hcontent : ∀ i, i < s.size → (s.addItem 2 t).content? i = s.content? i := by
    intro i hi
    rw [content?_addItem, if_neg (by omega), if_neg (by omega)]
  have hitem : (s.addItem 2 t).content? s.size = some (.element "li" []) := by
    rw [content?_addItem, if_neg (by omega), if_pos rfl]
  have htext : (s.addItem 2 t).content? (s.size + 1) = some (.text t) := by
    rw [content?_addItem, if_pos rfl]
  have hchildren := children_addItem h.sound hlt t
  have hkept : ∀ i, i < s.size → i ≠ 2 →
      (s.addItem 2 t).forest.children i = s.forest.children i := by
    intro i hi hne
    rw [hchildren, if_neg (by omega), if_neg (Ne.symm hne)]
  refine ⟨h.keeps (fun i hi => hcontent i (by omega)) fun i hi => hkept i (by omega) (by omega),
    sound_append (sound_pushItem h.sound t) (append_pushItem h.sound h.isElement t), ?_, ?_, ?_⟩
  · rw [hchildren, if_neg (by omega), if_pos rfl, h.children, List.map_append]
    rfl
  · simp only [List.forall_mem_append, List.forall_mem_singleton]
    refine ⟨fun x hx => ?_, hitem⟩
    rw [hcontent _ (lt_of_content? (h.item x hx)), h.item x hx]
  · simp only [List.forall_mem_append, List.forall_mem_singleton]
    refine ⟨fun x hx => ?_, ⟨"li", [], hitem⟩, s.size + 1, by rw [hchildren, if_pos rfl], htext⟩
    obtain ⟨-, c, hc, hu⟩ := h.shows x hx
    have hxlt := lt_of_content? (h.item x hx)
    refine ⟨⟨"li", [], ?_⟩, c, ?_, ?_⟩
    · rw [hcontent _ hxlt, h.item x hx]
    · rw [hkept _ hxlt (h.ne_list hx), hc]
    · rw [hcontent _ (lt_of_content? hu), hu]

/-- A text written over the one that an element shows. -/
theorem setText_of_showsText {i : Nat} {t : String} (h : s.ShowsText i t) (u : String) :
    ∃ c, s.loneText? i = some c ∧ s.content? c = some (.text t) ∧
      s.setText i u = (.ok (), s.mapContent c fun _ => .text u) := by
  obtain ⟨⟨tag, as, hel⟩, c, hchildren, hc⟩ := h
  have hlone : s.loneText? i = some c := by simp only [loneText?, hchildren, hc]
  exact ⟨c, hlone, hc, by simp only [setText, hel, hlone]⟩

/-- The text of an item written over. -/
theorem Lists.setText {front back : List (Nat × String)} {node : Nat} {t : String}
    (h : Lists s (front ++ (node, t) :: back)) (u : String) :
    ∃ s', s.setText node u = (.ok (), s') ∧ Lists s' (front ++ (node, u) :: back) := by
  have hshows := h.shows (node, t) (by simp)
  obtain ⟨c, hlone, hc, hset⟩ := setText_of_showsText hshows u
  obtain ⟨hnew, hothers⟩ := (overwrites_mapContent s c u).shows h.sound hshows.1 hlone
  have hsound := sound_setText h.sound node u
  rw [hset] at hsound
  -- what is not the text keeps its content, and nothing moves
  have hcontent : ∀ i d, isLeaf d = false → s.content? i = some d →
      (s.mapContent c fun _ => .text u).content? i = some d := by
    intro i d hd hi
    have hne : c ≠ i := by
      rintro rfl
      rw [hi] at hc
      cases hc
      cases hd
    rw [content?_mapContent, if_neg hne, hi]
  have hchildren : ∀ i, (s.mapContent c fun _ => .text u).forest.children i
      = s.forest.children i := fun i => by simp only [mapContent, Forest.children_mapContent]
  have hhosts : Hosts (s.mapContent c fun _ => .text u) :=
    ⟨hcontent 0 _ rfl h.document, hcontent 1 _ rfl h.main, hcontent 2 _ rfl h.list,
      (hchildren 0).trans h.documentChildren, (hchildren 1).trans h.mainChildren⟩
  have hne : ∀ x ∈ front ++ back, x.1 ≠ node := by
    have hnodup := h.sound.linked.nodup 2
    rw [h.children, List.map_append, List.map_cons, List.nodup_middle, ← List.map_append] at hnodup
    rintro x hx rfl
    exact (List.nodup_cons.mp hnodup).1 (List.mem_map.mpr ⟨x, hx, rfl⟩)
  refine ⟨_, hset, hhosts, hsound, ?_, ?_, ?_⟩
  · rw [hchildren, h.children]
    simp only [List.map_append, List.map_cons]
  · have hitem := h.item
    simp only [List.forall_mem_append, List.forall_mem_cons] at hitem ⊢
    exact ⟨fun x hx => hcontent _ _ rfl (hitem.1 x hx), hcontent _ _ rfl hitem.2.1,
      fun x hx => hcontent _ _ rfl (hitem.2.2 x hx)⟩
  · have hold := h.shows
    simp only [List.forall_mem_append, List.forall_mem_cons] at hold ⊢
    exact ⟨fun x hx => hothers.text _ _ (hne x (List.mem_append_left _ hx)) (hold.1 x hx), hnew,
      fun x hx => hothers.text _ _ (hne x (List.mem_append_right _ hx)) (hold.2.2 x hx)⟩

/-! ## What can be read of the list -/

theorem content_of_content? {i : Nat} {c : Content} (h : s.content? i = some c) :
    s.content i = .ok c := by
  rw [content, h]

theorem children_of_content? {i : Nat} {c : Content} (h : s.content? i = some c) :
    Surface.children s i = .ok (s.forest.children i) := by
  rw [Surface.children, content_of_content? h]
  rfl

theorem parent_of_mem_children (hs : Sound s) {i c : Nat} (h : c ∈ s.forest.children i) :
    s.parent c = .ok (some i) := by
  have hparent := (hs.linked.iff i c).mp h
  obtain ⟨n, hn, -⟩ := Option.bind_eq_some_iff.mp hparent
  have hc : s.content? c = some n.content.content := by
    rw [content?, Forest.content?, hn]
    rfl
  rw [parent, content_of_content? hc, ← hparent]
  rfl

/-- The markup of an element that shows a text. -/
theorem fragments_of_showsText {i : Nat} {tag t : String} {as : Entries String}
    (hi : s.content? i = some (.element tag as)) (h : s.ShowsText i t) :
    s.fragments i = [.element tag as [.text t]] := by
  obtain ⟨-, c, hchildren, hc⟩ := h
  -- the element and the text are two nodes, so there are levels for both
  obtain ⟨n, hn⟩ : ∃ n, s.size = n + 2 := by
    have hi' := lt_of_content? hi
    have hc' := lt_of_content? hc
    have hne : i ≠ c := by
      rintro rfl
      rw [hi] at hc
      cases hc
    exact ⟨s.size - 2, by omega⟩
  rw [fragments, hn]
  simp only [fragmentsWithin, hi, hchildren, hc, List.flatMap_cons, List.flatMap_nil,
    List.append_nil]

theorem innerMarkup_of_showsText {i : Nat} {t : String} (h : s.ShowsText i t) :
    s.innerMarkup i = .ok (String.ofList (Markup.escapeText t.toList)) := by
  obtain ⟨⟨tag, as, hi⟩, c, hchildren, hc⟩ := h
  obtain ⟨n, hn⟩ : ∃ n, s.size = n + 1 := ⟨s.size - 1, by have := lt_of_content? hi; omega⟩
  have hfragment : s.fragments c = [.text t] := by
    rw [fragments, hn]
    simp only [fragmentsWithin, hc]
  have hwrite : Markup.write [.text t] = String.ofList (Markup.escapeText t.toList) := by
    rw [Markup.write, Markup.writeAll_eq_flatMap]
    simp [Markup.writeOne, Markup.Token.write]
  rw [innerMarkup, children_of_content? hi, hchildren, ← hwrite]
  simp only [Except.map, List.flatMap_cons, List.flatMap_nil, List.append_nil, hfragment]

/-- What an element holds is no interpolation if it holds elements: the markup starts with a tag. -/
theorem interpolation?_of_elements {i : Nat} (hi : s.IsElement i)
    (h : ∀ c ∈ s.forest.children i, s.IsElement c) :
    ∃ markup, s.innerMarkup i = .ok markup ∧ Template.interpolation? markup = none := by
  obtain ⟨tag, as, hel⟩ := id hi
  refine ⟨_, by rw [innerMarkup, children_of_content? hel]; rfl, ?_⟩
  cases hchildren : s.forest.children i with
  | nil => rfl
  | cons c rest =>
    obtain ⟨tag, as, hc⟩ := h c (by rw [hchildren]; exact List.mem_cons_self)
    obtain ⟨n, hn⟩ : ∃ n, s.size = n + 1 := ⟨s.size - 1, by have := hi.lt; omega⟩
    have hfragments : ∃ below, s.fragments c = [.element tag as below] := by
      rw [fragments, hn]
      exact ⟨_, by simp only [fragmentsWithin, hc]; rfl⟩
    obtain ⟨below, hbelow⟩ := hfragments
    simp only [List.flatMap_cons, hbelow, Template.interpolation?, Markup.write,
      String.toList_ofList]
    exact congrArg (Option.map String.ofList) (Template.interpolated?_tag _)

theorem Hosts.exists_descendants (h : Hosts s) :
    ∃ below, s.forest.descendants 0 = 1 :: 2 :: below := by
  obtain ⟨n, hn⟩ : ∃ n, s.forest.size = n + 3 := by
    have hlt : 2 < s.forest.size := h.isElement.lt
    exact ⟨s.forest.size - 3, by omega⟩
  rw [Forest.descendants, hn]
  simp [Forest.descendantsWithin, h.documentChildren, h.mainChildren]

/-- A selector that matches the list or the element that holds it finds the first of them. -/
theorem Hosts.find_of_read (h : Hosts s) {source : String} {selector : Selector} {i : Nat}
    (hread : Selector.read source = .ok selector)
    (hfirst : ([1, 2].filter (s.isMatch selector)).head? = some i) : s.find source = .ok i := by
  obtain ⟨below, hbelow⟩ := h.exists_descendants
  have hdocument : s.isMatch selector 0 = false := by rw [isMatch, h.document]
  have hselect : (s.select selector).head? = some i := by
    show ((0 :: s.forest.descendants 0).filter (s.isMatch selector)).head? = some i
    rw [hbelow, List.filter_cons_of_neg (by simp [hdocument]),
      show 1 :: 2 :: below = [1, 2] ++ below from rfl, List.filter_append, List.head?_append,
      hfirst]
    rfl
  rw [find, query, queryAll, hread]
  simp only [Except.map, hselect]
  rfl

/-- The element that holds the list is found by its id. -/
theorem Hosts.find_main (h : Hosts s) : s.find "#app" = .ok 1 := by
  have hread : Selector.read "#app" = .ok ⟨none, some "app", []⟩ :=
    eq_ok_of_toOption (by decide +kernel)
  refine h.find_of_read hread ?_
  simp only [List.filter, isMatch, h.main, h.list]
  decide +kernel

/-- The list is the first one of the document. -/
theorem Hosts.find_list (h : Hosts s) : s.find "ul" = .ok 2 := by
  have hread : Selector.read "ul" = .ok ⟨some "ul", none, []⟩ :=
    eq_ok_of_toOption (by decide +kernel)
  refine h.find_of_read hread ?_
  simp only [List.filter, isMatch, h.main, h.list]
  decide +kernel

/-- What can be asked of the items of a list. -/
theorem Lists.read (h : Lists s items) : s.find "ul" = .ok 2 ∧
    Surface.children s 2 = .ok (items.map (·.1)) ∧
    (∀ x ∈ items, s.tag x.1 = .ok (some "li") ∧ s.textContent x.1 = .ok x.2) := by
  refine ⟨h.find_list, ?_, fun x hx => ⟨?_, textContent_of_showsText h.sound (h.shows x hx)⟩⟩
  · rw [children_of_content? h.list, h.children]
  · rw [tag, content_of_content? (h.item x hx)]
    rfl

/-! ## The list before its item is repeated -/

/-- The markup of a document with a list that repeats its item. -/
def repeatMarkup : String :=
  "<div id=app><ul><li vm-repeat='item in items'>\x7b\x7b item \x7d\x7d</li></ul></div>"

/-- The text of the item. -/
def itemText : String := String.ofList (Template.rowText "item".toList)

/-- The document with a list that repeats its item. -/
def repeatSurface : Surface ℓ where
  forest.nodes := #[
    ⟨⟨.document, []⟩, none, [1]⟩,
    ⟨⟨.element "div" [("id", "app")], []⟩, some 0, [2]⟩,
    ⟨⟨.element "ul" [], []⟩, some 1, [3]⟩,
    ⟨⟨.element "li" [("vm-repeat", "item in items")], []⟩, some 2, [4]⟩,
    ⟨⟨.text itemText, []⟩, some 3, []⟩]

theorem ofMarkup_repeatMarkup : ofMarkup repeatMarkup = .ok (repeatSurface : Surface ℓ) := by
  have hread : Markup.read repeatMarkup = .ok [.element "div" [("id", "app")] [.element "ul" []
      [.element "li" [("vm-repeat", "item in items")] [.text itemText]]]] :=
    eq_ok_of_toOption (by decide +kernel)
  -- the arrays of nodes are computed step by step
  simp [ofMarkup, load, parseFragment, hread, Except.map, insertAll, insert, insertUnder, blank,
    push, attach, size, append, content?, Forest.push, Forest.empty, Forest.size, Forest.attach,
    Forest.detach, Forest.parent?, Forest.node?, Forest.content?, Forest.mapChildren,
    Forest.setParent, Forest.isAtOrAbove, Forest.ancestors, Array.modify, Array.modifyM, document,
    repeatSurface]
  rfl

theorem sound_repeatSurface : Sound (repeatSurface : Surface ℓ) :=
  sound_load sound_blank ofMarkup_repeatMarkup

theorem hosts_repeatSurface : Hosts (repeatSurface : Surface ℓ) := ⟨rfl, rfl, rfl, rfl, rfl⟩

/-- The item once its attribute is taken away. -/
theorem removeAttribute_repeatSurface : ∃ s : Surface ℓ,
    repeatSurface.removeAttribute 3 "vm-repeat" = .ok s ∧ Sound s ∧ Hosts s ∧
      s.content? 3 = some (.element "li" []) ∧ s.ShowsText 3 itemText ∧
      s.forest.children 2 = [3] := by
  have h : (repeatSurface : Surface ℓ).removeAttribute 3 "vm-repeat"
      = .ok (repeatSurface.mapContent 3 fun _ => .element "li" []) := by rfl
  refine ⟨_, h, sound_removeAttribute sound_repeatSurface h, ?_, rfl, ?_, rfl⟩
  · exact ⟨rfl, rfl, rfl, rfl, rfl⟩
  · exact ⟨⟨"li", [], rfl⟩, 4, rfl, rfl⟩

/-- A list that is emptied. -/
theorem clear_list (hs : Sound s) (h : Hosts s) :
    ∃ s', s.clear 2 = .ok s' ∧ Lists s' [] := by
  have hclear : s.clear 2 = .ok ⟨s.forest.detachChildren 2⟩ := by
    rw [clear, content_of_content? h.list]
    rfl
  have hchildren := fun i => Forest.children_detachChildren (f := s.forest) 2 i
  refine ⟨_, hclear, ?_, sound_clear hs hclear, ?_, nofun, nofun⟩
  · refine h.keeps (fun i _ => content?_detachChildren 2 i) fun i hi => ?_
    rw [hchildren, if_neg (by omega)]
  · rw [hchildren, if_pos rfl]
    rfl

end Surface

end ReactiveView
