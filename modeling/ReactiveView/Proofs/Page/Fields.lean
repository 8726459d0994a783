import ReactiveView.Proofs.Page.Expansion
/-!
# Repeats over records

The list of a page whose `items` are a record gets one item for each key, in the order of the keys.
A key goes through quotes, markup and back, and is read as a part of an expression in the end.
Quotes and backslashes survive that, and so does everything else but two things. A key with two
equal braces in a row makes the text of its item something else than an interpolation: the item
stays unbound, and keeps the text. And any other key with a character that markup escapes is looked
up in its escaped form, of which nothing is said here.

Results:
* `unbound_of_hasMark`: no observer of the page is a binding of an item whose key holds a mark.
* `compile_record`: the items of a compiled page, and what they show.
* `record_marked_unbound`: not every item of a record shows its member.
-/
namespace ReactiveView.Page

open Run Template

variable {σ : Type}

theorem escapeText_key {key : String}
    (h : ∀ c ∈ key.toList, c ≠ '&' ∧ c ≠ '<' ∧ c ≠ '>') :
    escapeSegment (.field key) = .field key := by
  rw [escapeSegment, escapeText_eq_self h, String.ofList_toList]

/-- Nothing on the page is bound to an item whose key holds a mark. -/
theorem unbound_of_hasMark {options : Options σ} {scopes : Entries Value} {host : σ}
    {surface : Surface (Listener σ)} {graph : Graph (Observer σ)} {items : List (Nat × Segment)}
    {v : Value} (hlists : surface.Lists (items.map fun x => (x.1, shownText v x.2)))
    (hobservers : ∀ n o, o ∈ graph.observers n ↔
      o ∈ (repeatPage options scopes host).graph.observers n ∨
        ∃ x ∈ items, Hears (repeatPage options scopes host).graph x n o)
    {x : Nat × Segment} (hx : x ∈ items) (hmark : hasMark x.2.key.toList) (n : Nat) (b : Binding)
    (hb : .binding b ∈ graph.observers n) : b.node ≠ x.1 := by
  intro hnode
  have hdistinct : (items.map (·.1)).Nodup := by
    have hnodup := hlists.sound.linked.nodup 2
    rwa [hlists.children, List.map_map] at hnodup
  rcases (hobservers n (.binding b)).mp hb with hold | ⟨y, hy, hplain, -, hbinding⟩
  · obtain ⟨w, -, hw⟩ := observers_assemble _ scopes _ host n _ hold
    cases hw
  · -- the binding is that of an item, and of which item its node tells
    cases hbinding
    obtain rfl : y = x := List.inj_on_of_nodup_map hdistinct hy hx hnode
    rw [hasMark_escapeSegment, hmark] at hplain
    cases hplain

/-- Compiling a page whose items are a record succeeds, and leaves an item for each key, in order.
The item of a key that holds a mark of interpolations keeps its text and is not bound. The item of
any other key, if it is without characters that markup escapes, shows the member. -/
theorem compile_record {options : Options σ} {entries : Entries Value}
    (hitems : options.data.field? "items" = some (.record entries)) (hkeys : entries.keys.Nodup)
    (scopes : Entries Value) (host : σ) {depth : Nat} (hdepth : 6 ≤ depth) :
    ∃ surface p, Surface.ofMarkup Surface.repeatMarkup = .ok surface ∧
      compile (interpret depth) depth (.selector "#app")
        (assemble options (Registry.withBuiltins []) scopes surface host) = .done () p ∧
      p.data = options.data ∧ ∃ list items, p.surface.find "ul" = .ok list ∧
      p.surface.children list = .ok items ∧ items.length = entries.length ∧
      ∀ (k : Nat) (key : String) (v : Value), entries[k]? = some (key, v) →
        ∃ item, items[k]? = some item ∧ p.surface.tag item = .ok (some "li") ∧
          (hasMark key.toList →
            p.surface.textContent item
              = .ok (String.ofList (rowText (accessor "items".toList (.field key)))) ∧
            ∀ n b, .binding b ∈ p.graph.observers n → b.node ≠ item) ∧
          (hasMark key.toList = false → (∀ c ∈ key.toList, c ≠ '&' ∧ c ≠ '<' ∧ c ≠ '>') →
            p.surface.textContent item = .ok v.render) := by
  have hs : ∀ m ∈ (Value.record entries).members, Accessible m.1 := by
    intro m hm
    obtain ⟨e, -, rfl⟩ := List.mem_map.mp hm
    trivial
  obtain ⟨surface, graph, items, hcompile, hitems, hlists, -, hobservers⟩ :=
    compile_repeatPage hitems hs scopes host (interpret depth) hdepth
  obtain ⟨hfind, hchildren, hread⟩ := hlists.read
  have hlength : items.length = entries.length := by
    simpa [Value.members] using congrArg List.length hitems
  refine ⟨_, _, Surface.ofMarkup_repeatMarkup, hcompile, rfl, 2, _, hfind, hchildren, ?_, ?_⟩
  · rw [List.length_map, List.length_map, hlength]
  · intro k key v hk
    have hentry := congrArg (·[k]?) hitems
    simp only [Value.members, List.getElem?_map, hk, Option.map_some] at hentry
    obtain ⟨x, hx, hsegment⟩ := Option.map_eq_some_iff.mp hentry
    have hmem : x ∈ items := List.mem_of_getElem? hx
    obtain ⟨htag, hcontent⟩ := hread _ (List.mem_map_of_mem hmem)
    have hkey : x.2.key = key := by rw [hsegment]; rfl
    refine ⟨x.1, by simp only [List.getElem?_map, hx, Option.map_some], htag,
      fun hmark => ⟨?_, unbound_of_hasMark hlists hobservers hmem (hkey ▸ hmark)⟩,
      fun hplain hfree => ?_⟩
    · rw [hcontent, shownText, hasMark_escapeSegment, hkey, if_pos hmark, hsegment]
      rfl
    · have hmember : (Value.record entries).member? (.field key) = some v :=
        Value.get?_of_mem hkeys (List.mem_of_getElem? hk)
      rw [hcontent, shownText, hasMark_escapeSegment, hkey, hplain, hsegment, escapeText_key hfree,
        hmember]
      rfl

/-- A record of which one key has a quote in it, and another one two braces in a row. -/
def markedEntries : Entries Value := [("it's", .bool true), ("a\x7d\x7db", .bool true)]

def markedOptions : Options Unit := ⟨.record [("items", .record markedEntries)], [], [], []⟩

/-- The item of the key with a quote shows its member; the one of the key with braces shows its
text, and is not bound. -/
theorem compile_record_marked : ∃ surface p, Surface.ofMarkup Surface.repeatMarkup = .ok surface ∧
    compile (interpret 6) 6 (.selector "#app")
      (assemble markedOptions (Registry.withBuiltins []) [] surface ()) = .done () p ∧
    ∃ list items quoted marked, p.surface.find "ul" = .ok list ∧
      p.surface.children list = .ok items ∧ items.length = 2 ∧
      items[0]? = some quoted ∧ p.surface.textContent quoted = .ok "true" ∧
      items[1]? = some marked ∧
      p.surface.textContent marked = .ok "\x7b\x7b items['a\x7d\x7db'] \x7d\x7d" ∧
      ∀ n b, .binding b ∈ p.graph.observers n → b.node ≠ marked := by
  have hitems : markedOptions.data.field? "items" = some (.record markedEntries) := rfl
  have hkeys : markedEntries.keys.Nodup := by decide +kernel
  have hfree : ∀ c ∈ "it's".toList, c ≠ '&' ∧ c ≠ '<' ∧ c ≠ '>' := by simp
  obtain ⟨surface, p, hload, hrun, -, list, items, hfind, hchildren, hlength, hitem⟩ :=
    compile_record hitems hkeys [] () (Nat.le_refl 6)
  obtain ⟨quoted, hquoted, -, -, hmember⟩ := hitem 0 "it's" (.bool true) rfl
  obtain ⟨marked, hmarked, -, hmark, -⟩ := hitem 1 "a\x7d\x7db" (.bool true) rfl
  obtain ⟨htext, hunbound⟩ := hmark (by decide +kernel)
  refine ⟨surface, p, hload, hrun, list, items, quoted, marked, hfind, hchildren, hlength, hquoted,
    ?_, hmarked, ?_, hunbound⟩
  · rw [hmember (by decide +kernel) hfree]
    decide +kernel
  · rw [htext]
    decide +kernel

/-- The items of a record do not all show their members: the one of a key with two braces in a row
shows its own text. -/
theorem record_marked_unbound : ¬∀ entries : Entries Value, entries.keys.Nodup →
    ∃ depth surface p, 6 ≤ depth ∧ Surface.ofMarkup Surface.repeatMarkup = .ok surface ∧
      compile (interpret depth) depth (.selector "#app")
        (assemble (⟨.record [("items", .record entries)], [], [], []⟩ : Options Unit)
          (Registry.withBuiltins []) [] surface ()) = .done () p ∧
      ∃ list items, p.surface.find "ul" = .ok list ∧ p.surface.children list = .ok items ∧
        items.length = entries.length ∧ ∀ (k : Nat) (key : String) (v : Value),
          entries[k]? = some (key, v) → ∃ item, items[k]? = some item ∧
            p.surface.textContent item = .ok v.render := by
  intro h
  obtain ⟨depth, surface, p, hdepth, hload, hrun, list, items, hfind, hchildren, -, hitem⟩ :=
    h [("a\x7d\x7db", .bool true)] (by decide +kernel)
  obtain ⟨_, _, rows, hcompile, hrows, hlists, -⟩ :=
    @compile_repeatPage Unit ⟨.record [("items", .record [("a\x7d\x7db", .bool true)])], [], [], []⟩
      _ rfl (by simp [Value.members, Accessible]) [] () (interpret depth) depth hdepth
  obtain rfl : Surface.repeatSurface = surface :=
    Except.ok.inj (Surface.ofMarkup_repeatMarkup.symm.trans hload)
  cases hcompile.symm.trans hrun
  obtain ⟨hlist, hlisted, hread⟩ := hlists.read
  obtain rfl : 2 = list := Except.ok.inj (hlist.symm.trans hfind)
  obtain rfl := Except.ok.inj (hlisted.symm.trans hchildren)
  obtain ⟨x, rfl⟩ : ∃ x, rows = [x] := List.length_eq_one_iff.mp
    (by simpa [Value.members] using congrArg List.length hrows)
  obtain ⟨item, hx, htext⟩ := hitem 0 "a\x7d\x7db" (.bool true) rfl
  obtain rfl : x.1 = item := Option.some.inj hx
  have hsegment : x.2 = .field "a\x7d\x7db" := List.head_eq_of_cons_eq hrows
  have hshown : shownText (.record [("a\x7d\x7db", .bool true)]) x.2
      = "\x7b\x7b items['a\x7d\x7db'] \x7d\x7d" := by
    rw [hsegment]
    decide +kernel
  have htext := (hread _ List.mem_cons_self).2.symm.trans htext
  exact absurd (hshown.symm.trans (Except.ok.inj htext)) (by decide +kernel)

end ReactiveView.Page
