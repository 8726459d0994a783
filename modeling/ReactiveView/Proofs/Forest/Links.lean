import ReactiveView.Forest
/-!
# Links of forests

What each change of a forest does to contents, parents and children, and the invariant of the
links: `Linked`, that both ends of a link agree.

Results:
* `linked_push`, `linked_mapContent`, `linked_detach`, `linked_attach`, `linked_detachChildren`: no
  change of a forest breaks a link at one end only.
-/
namespace ReactiveView.Forest

variable {α : Type} {f : Forest α}

/-- Both ends of every link agree, and no child is counted twice. -/
structure Linked (f : Forest α) : Prop where
  iff : ∀ i c, c ∈ f.children i ↔ f.parent? c = some i
  nodup : ∀ i, (f.children i).Nodup

/-! ## Nodes that are there -/

theorem node?_eq_none_of_le {i : Nat} (h : f.size ≤ i) : f.node? i = none :=
  Array.getElem?_eq_none h

theorem lt_of_node? {i : Nat} {n : Node α} (h : f.node? i = some n) : i < f.size :=
  (Array.getElem?_eq_some_iff.mp h).1

theorem parent?_of_size_le {i : Nat} (h : f.size ≤ i) : f.parent? i = none := by
  rw [parent?, node?_eq_none_of_le h]
  rfl

theorem lt_of_content? {i : Nat} {a : α} (h : f.content? i = some a) : i < f.size := by
  obtain ⟨n, hn, -⟩ := Option.map_eq_some_iff.mp h
  exact lt_of_node? hn

theorem lt_of_parent? {i p : Nat} (h : f.parent? i = some p) : i < f.size := by
  obtain ⟨n, hn, -⟩ := Option.bind_eq_some_iff.mp h
  exact lt_of_node? hn

theorem lt_of_mem_children {i c : Nat} (h : c ∈ f.children i) : i < f.size := by
  refine Nat.lt_of_not_le fun hle => ?_
  simp [children, node?_eq_none_of_le hle] at h

/-! ## What a change does to each node -/

theorem node?_push (a : α) (i : Nat) :
    (f.push a).node? i = if i = f.size then some ⟨a, none, []⟩ else f.node? i := by
  simp only [node?, push, size, Array.getElem?_push]
  rfl

@[simp] theorem size_push (a : α) : (f.push a).size = f.size + 1 := by
  simp [push, size]

theorem content?_push (a : α) (i : Nat) :
    (f.push a).content? i = if i = f.size then some a else f.content? i := by
  simp only [content?, node?_push]
  split <;> rfl

@[simp] theorem parent?_push (a : α) (i : Nat) : (f.push a).parent? i = f.parent? i := by
  simp only [parent?, node?_push]
  split
  · next h => rw [node?_eq_none_of_le (Nat.le_of_eq h.symm)]; rfl
  · rfl

@[simp] theorem children_push (a : α) (i : Nat) : (f.push a).children i = f.children i := by
  simp only [children, node?_push]
  split
  · next h => rw [node?_eq_none_of_le (Nat.le_of_eq h.symm)]; rfl
  · rfl

@[simp] theorem size_mapContent (i : Nat) (g : α → α) : (f.mapContent i g).size = f.size := by
  simp [mapContent, size]

theorem node?_mapContent (i : Nat) (g : α → α) (j : Nat) : (f.mapContent i g).node? j
    = if i = j then (f.node? j).map (fun n => { n with content := g n.content }) else f.node? j := by
  simp only [node?, mapContent, Array.getElem?_modify]

theorem content?_mapContent (i : Nat) (g : α → α) (j : Nat) :
    (f.mapContent i g).content? j = if i = j then (f.content? j).map g else f.content? j := by
  simp only [content?, node?_mapContent]
  split <;> simp [Function.comp_def]

@[simp] theorem parent?_mapContent (i : Nat) (g : α → α) (j : Nat) :
    (f.mapContent i g).parent? j = f.parent? j := by
  simp only [parent?, node?_mapContent]
  split
  · cases f.node? j <;> rfl
  · rfl

@[simp] theorem children_mapContent (i : Nat) (g : α → α) (j : Nat) :
    (f.mapContent i g).children j = f.children j := by
  simp only [children, node?_mapContent]
  split
  · cases f.node? j <;> rfl
  · rfl

theorem node?_mapChildren (i : Nat) (g : List Nat → List Nat) (j : Nat) :
    (f.mapChildren i g).node? j
      = if i = j then (f.node? j).map (fun n => { n with children := g n.children })
        else f.node? j := by
  simp only [node?, mapChildren, Array.getElem?_modify]

@[simp] theorem size_mapChildren (i : Nat) (g : List Nat → List Nat) :
    (f.mapChildren i g).size = f.size := by
  simp [mapChildren, size]

@[simp] theorem content?_mapChildren (i : Nat) (g : List Nat → List Nat) (j : Nat) :
    (f.mapChildren i g).content? j = f.content? j := by
  simp only [content?, node?_mapChildren]
  split
  · cases f.node? j <;> rfl
  · rfl

@[simp] theorem parent?_mapChildren (i : Nat) (g : List Nat → List Nat) (j : Nat) :
    (f.mapChildren i g).parent? j = f.parent? j := by
  simp only [parent?, node?_mapChildren]
  split
  · cases f.node? j <;> rfl
  · rfl

theorem children_mapChildren_self {i : Nat} (h : i < f.size) (g : List Nat → List Nat) :
    (f.mapChildren i g).children i = g (f.children i) := by
  have : f.node? i = some f.nodes[i] := Array.getElem?_eq_getElem h
  simp [children, node?_mapChildren, this]

theorem children_mapChildren_of_ne {i j : Nat} (h : i ≠ j) (g : List Nat → List Nat) :
    (f.mapChildren i g).children j = f.children j := by
  simp only [children, node?_mapChildren, if_neg h]

theorem node?_setParent (i : Nat) (p : Option Nat) (j : Nat) : (f.setParent i p).node? j
    = if i = j then (f.node? j).map (fun n => { n with parent := p }) else f.node? j := by
  simp only [node?, setParent, Array.getElem?_modify]

@[simp] theorem size_setParent (i : Nat) (p : Option Nat) : (f.setParent i p).size = f.size := by
  simp [setParent, size]

@[simp] theorem content?_setParent (i : Nat) (p : Option Nat) (j : Nat) :
    (f.setParent i p).content? j = f.content? j := by
  simp only [content?, node?_setParent]
  split
  · cases f.node? j <;> rfl
  · rfl

@[simp] theorem children_setParent (i : Nat) (p : Option Nat) (j : Nat) :
    (f.setParent i p).children j = f.children j := by
  simp only [children, node?_setParent]
  split
  · cases f.node? j <;> rfl
  · rfl

theorem parent?_setParent_self {i : Nat} (h : i < f.size) (p : Option Nat) :
    (f.setParent i p).parent? i = p := by
  have : f.node? i = some f.nodes[i] := Array.getElem?_eq_getElem h
  simp [parent?, node?_setParent, this]

theorem parent?_setParent_of_ne {i j : Nat} (h : i ≠ j) (p : Option Nat) :
    (f.setParent i p).parent? j = f.parent? j := by
  simp only [parent?, node?_setParent, if_neg h]

theorem parent?_setParent_none (i j : Nat) :
    (f.setParent i none).parent? j = if i = j then none else f.parent? j := by
  simp only [parent?, node?_setParent]
  split
  · cases f.node? j <;> rfl
  · rfl

/-! ## Moving nodes -/

@[simp] theorem size_detach (i : Nat) : (f.detach i).size = f.size := by
  unfold detach
  split <;> simp

@[simp] theorem content?_detach (i j : Nat) : (f.detach i).content? j = f.content? j := by
  unfold detach
  split <;> simp

theorem parent?_detach (i j : Nat) :
    (f.detach i).parent? j = if i = j then none else f.parent? j := by
  unfold detach
  split
  · next h =>
    split
    · next heq => rw [← heq, h]
    · rfl
  · rw [parent?_setParent_none, parent?_mapChildren]

theorem children_detach (hf : Linked f) (i j : Nat) :
    (f.detach i).children j = (f.children j).filter (· ≠ i) := by
  have hfree : f.parent? i ≠ some j → (f.children j).filter (· ≠ i) = f.children j := by
    intro hne
    refine List.filter_eq_self.mpr fun c hc => ?_
    have : c ≠ i := fun heq => hne ((hf.iff j i).mp (heq ▸ hc))
    simpa using this
  unfold detach
  split
  · next h => rw [hfree (by simp [h])]
  · next p h =>
    rw [children_setParent]
    by_cases hp : p = j
    · subst hp
      exact children_mapChildren_self (lt_of_mem_children ((hf.iff p i).mpr h)) _
    · rw [children_mapChildren_of_ne hp, hfree (by simpa [h] using hp)]

@[simp] theorem size_attach (p c : Nat) : (f.attach p c).size = f.size := by
  simp [attach]

@[simp] theorem content?_attach (p c j : Nat) : (f.attach p c).content? j = f.content? j := by
  simp [attach]

theorem parent?_attach {c : Nat} (hc : c < f.size) (p j : Nat) :
    (f.attach p c).parent? j = if c = j then some p else f.parent? j := by
  unfold attach
  split
  · next h =>
    subst h
    exact parent?_setParent_self (by simpa using hc) _
  · next h => rw [parent?_setParent_of_ne h, parent?_mapChildren, parent?_detach, if_neg h]

theorem children_attach (hf : Linked f) {p : Nat} (hp : p < f.size) (c j : Nat) :
    (f.attach p c).children j
      = if p = j then (f.children j).filter (· ≠ c) ++ [c] else (f.children j).filter (· ≠ c) := by
  unfold attach
  rw [children_setParent]
  split
  · next h =>
    subst h
    rw [children_mapChildren_self (by simpa using hp), children_detach hf]
  · next h => rw [children_mapChildren_of_ne h, children_detach hf]

/-- A node that was nowhere a child comes behind the children that its new parent has. -/
theorem children_attach_of_top (hf : Linked f) {p c : Nat} (hp : p < f.size)
    (hc : f.parent? c = none) (j : Nat) :
    (f.attach p c).children j = if p = j then f.children j ++ [c] else f.children j := by
  have hfilter : (f.children j).filter (· ≠ c) = f.children j := by
    refine List.filter_eq_self.mpr fun d hd => ?_
    have hne : d ≠ c := by
      rintro rfl
      rw [(hf.iff j d).mp hd] at hc
      cases hc
    simpa using hne
  rw [children_attach hf hp, hfilter]

/-- What it does to take nodes out at their own end of the links. -/
theorem foldl_setParent (cs : List Nat) (f : Forest α) :
    let f' := cs.foldl (fun f c => f.setParent c none) f
    f'.size = f.size ∧ (∀ j, f'.content? j = f.content? j) ∧
      (∀ j, f'.children j = f.children j) ∧
      ∀ j, f'.parent? j = if j ∈ cs then none else f.parent? j := by
  induction cs generalizing f with
  | nil => exact ⟨rfl, fun _ => rfl, fun _ => rfl, fun _ => by simp⟩
  | cons c cs ih =>
    obtain ⟨hsize, hcontent, hchildren, hparent⟩ := ih (f.setParent c none)
    refine ⟨by simpa using hsize, fun j => by simpa using hcontent j,
      fun j => by simpa using hchildren j, fun j => (hparent j).trans ?_⟩
    rw [parent?_setParent_none]
    by_cases hj : j ∈ cs
    · simp [hj]
    · by_cases hc : c = j
      · simp [hc]
      · simp [hj, hc, Ne.symm hc]

@[simp] theorem size_detachChildren (i : Nat) : (f.detachChildren i).size = f.size := by
  rw [detachChildren, (foldl_setParent _ _).1, size_mapChildren]

@[simp] theorem content?_detachChildren (i j : Nat) :
    (f.detachChildren i).content? j = f.content? j := by
  rw [detachChildren, (foldl_setParent _ _).2.1, content?_mapChildren]

theorem children_detachChildren (i j : Nat) :
    (f.detachChildren i).children j = if i = j then [] else f.children j := by
  rw [detachChildren, (foldl_setParent _ _).2.2.1]
  split
  · next h =>
    subst h
    by_cases hi : i < f.size
    · exact children_mapChildren_self hi _
    · have hnone : (f.mapChildren i fun _ => []).node? i = none :=
        node?_eq_none_of_le (by simpa using hi)
      simp [children, hnone]
  · next h => exact children_mapChildren_of_ne h _

theorem parent?_detachChildren (i j : Nat) :
    (f.detachChildren i).parent? j = if j ∈ f.children i then none else f.parent? j := by
  rw [detachChildren, (foldl_setParent _ _).2.2.2, parent?_mapChildren]

/-- Without children there is nothing to take out. -/
theorem detachChildren_of_nil {i : Nat} (h : f.children i = []) : f.detachChildren i = f := by
  have hsame : f.mapChildren i (fun _ => []) = f := by
    refine congrArg Forest.mk (Array.ext (Array.size_modify ..) fun j _ hj => ?_)
    rw [Array.getElem_modify]
    split
    · next heq =>
      subst heq
      have hnode : f.node? i = some f.nodes[i] := Array.getElem?_eq_getElem hj
      rw [children, hnode] at h
      exact congrArg (fun cs => { f.nodes[i] with children := cs }) h.symm
    · rfl
  rw [detachChildren, h, hsame]
  rfl

/-! ## Links stay whole -/

theorem linked_empty : Linked (empty : Forest α) where
  iff i c := by simp [children, parent?, node?, empty]
  nodup i := by simp [children, node?, empty]

theorem linked_push (hf : Linked f) (a : α) : Linked (f.push a) where
  iff i c := by rw [children_push, parent?_push]; exact hf.iff i c
  nodup i := by rw [children_push]; exact hf.nodup i

theorem linked_mapContent (hf : Linked f) (i : Nat) (g : α → α) : Linked (f.mapContent i g) where
  iff j c := by rw [children_mapContent, parent?_mapContent]; exact hf.iff j c
  nodup j := by rw [children_mapContent]; exact hf.nodup j

theorem linked_detach (hf : Linked f) (i : Nat) : Linked (f.detach i) where
  iff j c := by
    rw [children_detach hf, parent?_detach, List.mem_filter, hf.iff j c]
    by_cases hc : i = c
    · simp [hc]
    · simp [hc, Ne.symm hc]
  nodup j := by rw [children_detach hf]; exact (hf.nodup j).filter _

theorem linked_attach (hf : Linked f) {p c : Nat} (hp : p < f.size) (hc : c < f.size) :
    Linked (f.attach p c) where
  iff j d := by
    have hmem := (linked_detach hf c).iff j d
    rw [parent?_detach] at hmem
    rw [children_attach hf hp, ← children_detach hf, parent?_attach hc]
    by_cases hd : c = d
    · subst hd
      have hout : c ∉ (f.detach c).children j := by simpa using hmem
      by_cases hj : p = j <;> simp [hj, hout]
    · by_cases hj : p = j <;> simp [hj, hd, Ne.symm hd, hmem]
  nodup j := by
    have hnodup := (linked_detach hf c).nodup j
    rw [children_attach hf hp, ← children_detach hf]
    split
    · refine List.nodup_append.mpr ⟨hnodup, by simp, ?_⟩
      rintro d hd e he rfl
      rw [List.mem_singleton.mp he, children_detach hf] at hd
      simp at hd
    · exact hnodup

theorem linked_detachChildren (hf : Linked f) (i : Nat) : Linked (f.detachChildren i) where
  iff j c := by
    have hi := hf.iff i c
    have hj := hf.iff j c
    rw [children_detachChildren, parent?_detachChildren]
    by_cases hij : i = j
    · subst hij
      by_cases hc : c ∈ f.children i
      · simp [hc]
      · simpa [hc] using fun h => hc (hi.mpr h)
    · by_cases hc : c ∈ f.children i
      · simp [hc, hij, hj, hi.mp hc]
      · simp [hc, hij, hj]
  nodup j := by
    rw [children_detachChildren]
    split
    · exact List.nodup_nil
    · exact hf.nodup j

end ReactiveView.Forest
