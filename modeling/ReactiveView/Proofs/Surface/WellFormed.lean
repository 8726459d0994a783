import ReactiveView.Proofs.Forest.Acyclic
import ReactiveView.Proofs.Markup.RoundTrip
import ReactiveView.Proofs.Surface.Lists
/-!
# Well-formed surfaces

What a surface is worth relying on: besides being sound it has no node above itself, which is what
the walks up and down end by, and no element has two attributes of one name. And a node that is
there stays what it is: nodes are only added, texts and attributes only written.

Every edit, the refused ones included, is a row of small changes: a node more, a node moved to
where it closes no circle, the children of a node taken out, a content written over by one of its
shape. So what an edit keeps is shown once for each small change, and what an edit is made of is
shown apart from that. A node is never moved below itself for one of two reasons: the check of
`append` has seen everything above the new place, or the node is newer than the place.

Results:
* `changes_apply`: an edit is a row of small changes.
* `wellFormed_apply`, `continues_apply`: what one edit keeps.
* `wellFormed_of_reached`: every surface that edits and listeners lead to is well-formed.
* `load_of_read`: no load stops half-way.
* `forest_of_edits`: the same for a row of edits of a blank or a loaded surface, written out.
-/
namespace ReactiveView

/-- What stays of a content when texts and attributes are written: its kind, and its tag. -/
def Content.shape : Content → Content
  | .document => .document
  | .element tag _ => .element tag []
  | .text _ => .text ""
  | .comment _ => .comment ""

/-- The names of the attributes are distinct. -/
def Content.IsDistinct : Content → Prop
  | .element _ attributes => (Entries.keys attributes).Nodup
  | _ => True

theorem Content.kind_shape (c : Content) : c.shape.kind = c.kind := by
  cases c <;> rfl

namespace Surface

variable {ℓ : Type} {s s' : Surface ℓ}

theorem isLeaf_shape (c : Content) : isLeaf c.shape = isLeaf c := by
  cases c <;> rfl

/-- A sound surface in which no node is above itself and no element has two attributes of one
name. -/
structure WellFormed (s : Surface ℓ) : Prop extends Sound s where
  acyclic : s.forest.Acyclic
  names : ∀ i c, s.content? i = some c → c.IsDistinct

theorem WellFormed.sound_forest (h : WellFormed s) : s.forest.Sound := ⟨h.linked, h.acyclic⟩

/-- No link leads out of the surface. -/
theorem Sound.lt_size (h : Sound s) {p c : Nat} (hc : c ∈ s.forest.children p) :
    p < s.size ∧ c < s.size :=
  ⟨Forest.lt_of_mem_children hc, Forest.lt_of_parent? ((h.linked.iff p c).mp hc)⟩

/-- A surface with more nodes, in which those that were there have the kinds and tags they had. -/
structure Continues (s s' : Surface ℓ) : Prop where
  size : s.size ≤ s'.size
  shape : ∀ i < s.size, (s'.content? i).map Content.shape = (s.content? i).map Content.shape

theorem Continues.refl (s : Surface ℓ) : Continues s s := ⟨Nat.le_refl _, fun _ _ => rfl⟩

theorem Continues.trans {s₁ s₂ s₃ : Surface ℓ} (h : Continues s₁ s₂) (h' : Continues s₂ s₃) :
    Continues s₁ s₃ where
  size := Nat.le_trans h.size h'.size
  shape i hi := (h'.shape i (Nat.lt_of_lt_of_le hi h.size)).trans (h.shape i hi)

/-- A node that is there keeps its shape. -/
theorem Continues.exists_content? (h : Continues s s') {i : Nat} {c : Content}
    (hi : s.content? i = some c) : ∃ d, s'.content? i = some d ∧ d.shape = c.shape := by
  have hshape := h.shape i (lt_of_content? hi)
  rw [hi] at hshape
  exact Option.map_eq_some_iff.mp hshape

/-- What depends on the shape of a node only is kept. -/
theorem Continues.map_content (h : Continues s s') {i : Nat} (hi : i < s.size) {β : Type}
    {g : Content → β} (hg : ∀ c, g c.shape = g c) : (s'.content i).map g = (s.content i).map g := by
  have hshape := h.shape i hi
  unfold content
  cases hc : s.content? i with
  | none =>
    rw [hc] at hshape
    rw [Option.map_eq_none_iff.mp hshape]
  | some c =>
    rw [hc] at hshape
    obtain ⟨d, hd, hdc⟩ := Option.map_eq_some_iff.mp hshape
    rw [hd]
    exact congrArg Except.ok (by rw [← hg d, hdc, hg c])

theorem Continues.kind (h : Continues s s') {i : Nat} (hi : i < s.size) :
    s'.kind i = s.kind i := h.map_content hi Content.kind_shape

theorem Continues.tag (h : Continues s s') {i : Nat} (hi : i < s.size) : s'.tag i = s.tag i :=
  h.map_content hi fun c => by cases c <;> rfl

/-- The document stays the document. -/
theorem Continues.content?_document (h : Continues s s')
    (hdocument : s.content? document = some .document) :
    s'.content? document = some .document := by
  obtain ⟨d, hd, hdshape⟩ := h.exists_content? hdocument
  cases d with
  | document => exact hd
  | element => cases hdshape
  | text => cases hdshape
  | comment => cases hdshape

/-- An element stays an element. -/
theorem Continues.isElement (h : Continues s s') {i : Nat} (hi : s.IsElement i) :
    s'.IsElement i := by
  obtain ⟨tag, as, hi⟩ := hi
  obtain ⟨d, hd, hdshape⟩ := h.exists_content? hi
  cases d with
  | element tag' as' => exact ⟨tag', as', hd⟩
  | document => cases hdshape
  | text => cases hdshape
  | comment => cases hdshape

/-! ## Small changes -/

/-- What edits are made of. -/
inductive Change (s : Surface ℓ) : Surface ℓ → Prop
  | push {c : Content} (hc : c.IsDistinct) : Change s (s.push c)
  | attach {p c : Nat} {d : Content} (hp : s.content? p = some d) (hd : isLeaf d = false)
      (hc : c < s.size) (hne : c ≠ p) (hnot : ¬s.forest.Above c p) : Change s (s.attach p c)
  | detachChildren (i : Nat) : Change s ⟨s.forest.detachChildren i⟩
  | rewrite {i : Nat} {c d : Content} (hi : s.content? i = some c) (hshape : d.shape = c.shape)
      (hd : d.IsDistinct) : Change s (s.mapContent i fun _ => d)

/-- Small changes one after the other. -/
abbrev Changes : Surface ℓ → Surface ℓ → Prop := Relation.ReflTransGen Change

theorem wellFormed_change (hs : WellFormed s) (h : Change s s') : WellFormed s' := by
  cases h with
  | @push c hc =>
    refine ⟨sound_push hs.toSound c, hs.acyclic.mono fun i p hp => ?_, fun i d hd => ?_⟩
    · exact (Forest.parent?_push _ i).symm.trans hp
    · rw [content?_push] at hd
      split at hd
      · cases hd
        exact hc
      · exact hs.names i d hd
  | attach hp hd hc hne hnot =>
    refine ⟨sound_attach hs.toSound hp hd hc, Forest.acyclic_attach hs.acyclic hc hne hnot,
      fun i e he => hs.names i e ?_⟩
    rwa [content?_attach] at he
  | detachChildren i =>
    refine ⟨sound_detachChildren hs.toSound i, hs.acyclic.mono fun j p hp => ?_,
      fun j d hd => hs.names j d ?_⟩
    · rw [Forest.parent?_detachChildren] at hp
      split at hp
      · cases hp
      · exact hp
    · rwa [content?_detachChildren] at hd
  | @rewrite i c d hi hshape hd =>
    refine ⟨sound_mapContent hs.toSound fun e he hleaf => ?_,
      hs.acyclic.mono fun j p hp => ?_, fun j e he => ?_⟩
    · rw [hi] at he
      cases he
      rwa [← isLeaf_shape, hshape, isLeaf_shape] at hleaf
    · exact (Forest.parent?_mapContent i _ j).symm.trans hp
    · rw [content?_mapContent] at he
      split at he
      · obtain ⟨_, _, rfl⟩ := Option.map_eq_some_iff.mp he
        exact hd
      · exact hs.names j e he

theorem continues_change (h : Change s s') : Continues s s' := by
  cases h with
  | push hc =>
    exact ⟨by simp, fun i hi => by rw [content?_push, if_neg (Nat.ne_of_lt hi)]⟩
  | attach hp hd hc hne hnot => exact ⟨by simp, fun i _ => by rw [content?_attach]⟩
  | detachChildren i =>
    exact ⟨Nat.le_of_eq (Forest.size_detachChildren i).symm,
      fun j _ => by rw [content?_detachChildren]⟩
  | @rewrite i c d hi hshape hd =>
    refine ⟨by simp, fun j _ => ?_⟩
    rw [content?_mapContent]
    split
    · next heq =>
      rw [← heq, hi]
      exact congrArg some hshape
    · rfl

theorem wellFormed_changes (hs : WellFormed s) (h : Changes s s') : WellFormed s' := by
  induction h with
  | refl => exact hs
  | tail _ hlast ih => exact wellFormed_change ih hlast

theorem continues_changes (h : Changes s s') : Continues s s' := by
  induction h with
  | refl => exact .refl s
  | tail _ hlast ih => exact ih.trans (continues_change hlast)

/-! ## What edits are made of -/

mutual

/-- Fragments that have been read become nodes by small changes, and the nodes that were there
stay where they are. -/
theorem changes_insert (s : Surface ℓ) (hs : Sound s) (f : Fragment)
    (hf : Markup.Sound Markup.Loose f) : Changes s (s.insert f) ∧
      ∀ i < s.size, (s.insert f).forest.parent? i = s.forest.parent? i := by
  cases hf with
  | text _ =>
    rw [insert]
    exact ⟨.single (.push trivial), fun i _ => Forest.parent?_push _ i⟩
  | comment _ =>
    rw [insert]
    exact ⟨.single (.push trivial), fun i _ => Forest.parent?_push _ i⟩
  | @element tag attributes children _ hattributes _ _ hchildren =>
    rw [insert]
    have hnew : (s.push (.element tag attributes)).content? s.size
        = some (.element tag attributes) := by
      rw [content?_push, if_pos rfl]
    obtain ⟨hrest, hparents⟩ :=
      changes_insertUnder _ (sound_push hs _) s.size _ hnew rfl children hchildren
    have hdistinct : (Content.element tag attributes).IsDistinct := hattributes.distinct
    refine ⟨.head (.push hdistinct) hrest, fun i hi => ?_⟩
    rw [hparents i (by rw [size_push]; omega)]
    exact Forest.parent?_push _ i

theorem changes_insertUnder (s : Surface ℓ) (hs : Sound s) (p : Nat) (d : Content)
    (hp : s.content? p = some d) (hd : isLeaf d = false) (fs : List Fragment)
    (hfs : ∀ f ∈ fs, Markup.Sound Markup.Loose f) : Changes s (insertUnder p s fs) ∧
      ∀ i < s.size, (insertUnder p s fs).forest.parent? i = s.forest.parent? i := by
  cases fs with
  | nil =>
    rw [insertUnder]
    exact ⟨.refl, fun _ _ => rfl⟩
  | cons f rest =>
    rw [insertUnder]
    obtain ⟨hf, hrest⟩ := List.forall_mem_cons.mp hfs
    obtain ⟨hsound, hext, hlt⟩ := insert_sound s hs f
    obtain ⟨hfirst, hparents⟩ := changes_insert s hs f hf
    have hlow : p < s.size := lt_of_content? hp
    have hp' : (s.insert f).content? p = some d := (hext.content p hlow).trans hp
    -- what is above the old node `p` is old, so the new top is not
    have hnot : ¬(s.insert f).forest.Above s.size p := by
      intro habove
      refine Nat.lt_irrefl s.size (habove.lt_of_closed (fun c q hc hq => ?_) hlow)
      rw [hparents c hc] at hq
      exact Forest.lt_of_mem_children ((hs.linked.iff q c).mpr hq)
    obtain ⟨hlast, hkept⟩ := changes_insertUnder _ (sound_attach hsound hp' hd hlt) p d
      ((content?_attach p s.size p).trans hp') hd rest hrest
    refine ⟨hfirst.trans (.head (.attach hp' hd hlt (Nat.ne_of_gt hlow) hnot) hlast),
      fun i hi => ?_⟩
    rw [hkept i (by rw [size_attach]; omega)]
    exact (Forest.parent?_attach hlt p i).trans
      ((if_neg (Nat.ne_of_gt hi)).trans (hparents i hi))

end

theorem changes_insertAll (hs : Sound s) {fs : List Fragment}
    (hfs : ∀ f ∈ fs, Markup.Sound Markup.Loose f) : Changes s (s.insertAll fs).2 := by
  induction fs generalizing s with
  | nil => exact .refl
  | cons f rest ih =>
    obtain ⟨hf, hrest⟩ := List.forall_mem_cons.mp hfs
    exact (changes_insert s hs f hf).1.trans (ih (insert_sound s hs f).1 hrest)

/-- Where the check for circles lets a node pass, it is not above its new place. -/
theorem changes_append (hs : WellFormed s) {p c : Nat} (h : s.append p c = .ok s') :
    Changes s s' := by
  obtain ⟨rfl, d, e, hp, hd, hc⟩ := append_eq_ok h
  have hcheck : s.forest.isAtOrAbove c p = false := by
    refine Bool.eq_false_iff.mpr fun hat => ?_
    unfold append at h
    rw [hp, hc] at h
    cases d <;> simp [hat] at h
  have hfree : ¬(c = p ∨ s.forest.Above c p) := by
    rw [← Forest.isAtOrAbove_iff hs.sound_forest, hcheck]
    exact Bool.false_ne_true
  exact .single (.attach hp hd (lt_of_content? hc) (fun heq => hfree (.inl heq))
    fun habove => hfree (.inr habove))

theorem partsKeep_changes (hs : WellFormed s) (e : Edit) : PartsKeep (Changes s) s e where
  insert _ _ hread := changes_insertAll hs.toSound (Markup.sound_of_read hread)
  append _ _ _ _ h₁ h := h₁.trans (changes_append (wellFormed_changes hs h₁) h)
  detach _ i h₁ := h₁.tail (.detachChildren i)
  push t := .single (.push (c := .text t) trivial)
  text _ _ _ hk := .single (.rewrite hk rfl trivial)
  set i name value _ _ _ hi :=
    .single (.rewrite hi rfl (Entries.nodup_keys_insert (hs.names i _ hi) _ value))
  erase i name _ _ hi := by
    refine .single (.rewrite hi rfl ?_)
    have hnodup := hs.names i _ hi
    rw [Content.IsDistinct, Entries.keys_erase]
    exact hnodup.filter _

/-- Whatever an edit answers, what it has done are small changes. -/
theorem changes_apply (hs : WellFormed s) (e : Edit) : Changes s (s.apply e).2 :=
  apply_keeps (partsKeep_changes hs e) .refl

theorem changes_load (hs : WellFormed s) {source : String} (h : s.load source = .ok s') :
    Changes s s' := load_keeps (partsKeep_changes hs _) h

/-! ## Surfaces that can come about -/

theorem wellFormed_blank : WellFormed (blank : Surface ℓ) where
  toSound := sound_blank
  acyclic := Forest.acyclic_of_parent?_none fun i => by
    rw [blank, Forest.parent?_push]
    rfl
  names i c h := by
    rw [blank, content?, Forest.content?_push] at h
    split at h
    · cases h
      trivial
    · cases h

theorem wellFormed_apply (hs : WellFormed s) (e : Edit) : WellFormed (s.apply e).2 :=
  wellFormed_changes hs (changes_apply hs e)

theorem continues_apply (hs : WellFormed s) (e : Edit) : Continues s (s.apply e).2 :=
  continues_changes (changes_apply hs e)

theorem wellFormed_listen (hs : WellFormed s) {i : Nat} {event : String} {l : ℓ}
    (h : s.listen i event l = .ok s') : WellFormed s' where
  toSound := sound_listen hs.toSound h
  acyclic := hs.acyclic.mono fun c p hp => by
    have hlinked := (sound_listen hs.toSound h).linked
    rw [← hs.linked.iff p c, ← (listen_keeps h).2 p]
    exact (hlinked.iff p c).mpr hp
  names j c hc := hs.names j c (((listen_keeps h).1 j).symm.trans hc)

/-- Every surface that can come about is well-formed. -/
theorem wellFormed_of_reached (h : Reached s) : WellFormed s := by
  induction h with
  | blank => exact wellFormed_blank
  | step _ hstep ih =>
    cases hstep with
    | edit e => exact wellFormed_apply ih e
    | listen hl => exact wellFormed_listen ih hl

theorem content?_document_of_reached (h : Reached s) : s.content? document = some .document := by
  induction h with
  | blank => rfl
  | step hbefore hstep ih =>
    cases hstep with
    | edit e => exact (continues_apply (wellFormed_of_reached hbefore) e).content?_document ih
    | listen hl => exact ((listen_keeps hl).1 document).trans ih

/-! ## Loading does not stop half-way -/

/-- The tops of new fragments are new, and the nodes that were there stay where they are. -/
theorem tops_insertAll (hs : Sound s) {fs : List Fragment}
    (hfs : ∀ f ∈ fs, Markup.Sound Markup.Loose f) :
    s.size ≤ (s.insertAll fs).2.size ∧
    (∀ top ∈ (s.insertAll fs).1, s.size ≤ top ∧ top < (s.insertAll fs).2.size) ∧
    ∀ i < s.size, (s.insertAll fs).2.forest.parent? i = s.forest.parent? i := by
  induction fs generalizing s with
  | nil => exact ⟨Nat.le_refl _, fun _ h => absurd h List.not_mem_nil, fun _ _ => rfl⟩
  | cons f rest ih =>
    obtain ⟨hf, hrest⟩ := List.forall_mem_cons.mp hfs
    obtain ⟨hsound, -, hlt⟩ := insert_sound s hs f
    obtain ⟨hsize, htops, hparents⟩ := ih hsound hrest
    simp only [insertAll]
    refine ⟨by omega, fun top htop => ?_, fun i hi => ?_⟩
    · rcases List.mem_cons.mp htop with rfl | htop
      · exact ⟨Nat.le_refl _, by omega⟩
      · have := htops top htop
        omega
    · rw [hparents i (by omega)]
      exact (changes_insert s hs f hf).2 i hi

/-- New nodes can be moved under an old one, as long as what is above the old one is old. -/
theorem foldlM_append_of_new (hs : WellFormed s) {n p : Nat} {d : Content}
    (hp : s.content? p = some d) (hd : isLeaf d = false) (hpn : p < n)
    (hold : ∀ c q, c < n → s.forest.parent? c = some q → q < n) {tops : List Nat}
    (htops : ∀ top ∈ tops, n ≤ top ∧ top < s.size) :
    ∃ s', tops.foldlM (fun s i => s.append p i) s = .ok s' := by
  induction tops generalizing s with
  | nil => exact ⟨s, rfl⟩
  | cons top rest ih =>
    obtain ⟨⟨hn, hlt⟩, hrest⟩ := List.forall_mem_cons.mp htops
    obtain ⟨e, he⟩ := exists_content?_of_lt hlt
    have hfree : s.forest.isAtOrAbove top p = false := by
      refine Bool.eq_false_iff.mpr fun hat => ?_
      rcases (Forest.isAtOrAbove_iff hs.sound_forest).mp hat with rfl | habove
      · omega
      · have := habove.lt_of_closed hold hpn
        omega
    have happend : s.append p top = .ok (s.attach p top) := by
      unfold append
      rw [hp, he, hfree]
      cases d with
      | document => rfl
      | element => rfl
      | text => cases hd
      | comment => cases hd
    rw [List.foldlM_cons, happend]
    refine ih (wellFormed_changes hs (changes_append hs happend))
      ((content?_attach p top p).trans hp) (fun c q hc hq => ?_) fun t ht => ?_
    · refine hold c q hc ?_
      rw [attach, Forest.parent?_attach hlt, if_neg (by omega)] at hq
      exact hq
    · rw [size_attach]
      exact hrest t ht

/-- Whatever can be read can be loaded, so no load leaves a part of its markup behind. -/
theorem load_of_read (h : Reached s) {source : String} {fs : List Fragment}
    (hread : Markup.read source = .ok fs) : ∃ s', s.load source = .ok s' := by
  have hs := wellFormed_of_reached h
  have hfs := Markup.sound_of_read hread
  have hchanges := changes_insertAll hs.toSound hfs
  obtain ⟨-, htops, hparents⟩ := tops_insertAll hs.toSound hfs
  have hdocument := content?_document_of_reached h
  have hold : ∀ c q, c < s.size → (s.insertAll fs).2.forest.parent? c = some q → q < s.size := by
    intro c q hc hq
    rw [hparents c hc] at hq
    exact Forest.lt_of_mem_children ((hs.linked.iff q c).mpr hq)
  obtain ⟨s', hs'⟩ := foldlM_append_of_new (wellFormed_changes hs hchanges)
    ((continues_changes hchanges).content?_document hdocument) rfl (lt_of_content? hdocument)
    hold htops
  exact ⟨s', by rw [load, parseFragment, hread]; exact hs'⟩

/-! ## Rows of edits -/

/-- The surface after some edits. One that refuses does not keep the next ones from being made. -/
def after (s : Surface ℓ) (edits : List Edit) : Surface ℓ :=
  edits.foldl (fun s e => (s.apply e).2) s

theorem reached_after (h : Reached s) (edits : List Edit) : Reached (s.after edits) := by
  induction edits generalizing s with
  | nil => exact h
  | cons e rest ih => exact ih (.step h (.edit s e))

theorem wellFormed_after (hs : WellFormed s) (edits : List Edit) : WellFormed (s.after edits) := by
  induction edits generalizing s with
  | nil => exact hs
  | cons e rest ih => exact ih (wellFormed_apply hs e)

theorem continues_after (hs : WellFormed s) (edits : List Edit) :
    Continues s (s.after edits) := by
  induction edits generalizing s with
  | nil => exact .refl s
  | cons e rest ih => exact (continues_apply hs e).trans (ih (wellFormed_apply hs e))

theorem wellFormed_of_ofMarkup {source : String} (h : ofMarkup source = .ok s) : WellFormed s :=
  wellFormed_changes wellFormed_blank (changes_load wellFormed_blank h)

/-- A surface that was blank or loaded from markup stays a forest of well-formed nodes under any
edits, and later edits take nothing away and change no kind and no tag. -/
theorem forest_of_edits (hs : s = blank ∨ ∃ source, ofMarkup source = .ok s)
    (earlier later : List Edit) :
    let t := s.after earlier
    (∀ p c, c ∈ t.forest.children p ↔ t.forest.parent? c = some p) ∧
    (∀ p, (t.forest.children p).Nodup) ∧
    (∀ i, ¬t.forest.Above i i) ∧
    (∀ i c, t.content? i = some c → isLeaf c → t.forest.children i = []) ∧
    (∀ p, ∀ c ∈ t.forest.children p, p < t.size ∧ c < t.size) ∧
    (∀ i tag attributes, t.content? i = some (.element tag attributes) →
      (Entries.keys attributes).Nodup) ∧
    t.size ≤ (t.after later).size ∧
    ∀ i < t.size, (t.after later).kind i = t.kind i ∧ (t.after later).tag i = t.tag i := by
  intro t
  have hstart : WellFormed s := by
    rcases hs with rfl | ⟨source, hsource⟩
    · exact wellFormed_blank
    · exact wellFormed_of_ofMarkup hsource
  have ht : WellFormed t := wellFormed_after hstart earlier
  have hlater : Continues t (t.after later) := continues_after ht later
  exact ⟨ht.linked.iff, ht.linked.nodup, ht.acyclic, ht.leaf, fun _ _ => ht.toSound.lt_size,
    fun i _ _ hi => ht.names i _ hi, hlater.size,
    fun _ hi => ⟨hlater.kind hi, hlater.tag hi⟩⟩

/-- Edits of a list, of which the first would put the list below itself and is refused. -/
theorem forest_of_edits_list :
    let t : Surface Unit := repeatSurface.after [.append 3 2, .setText 3 "new"]
    let u := t.after [.clear 2, .append 2 1]
    ofMarkup repeatMarkup = .ok (repeatSurface : Surface Unit) ∧ ¬t.forest.Above 2 2 ∧
      t.size ≤ u.size ∧ u.tag 3 = t.tag 3 := by
  intro t u
  obtain ⟨-, -, hacyclic, -, -, -, hsize, hkept⟩ := forest_of_edits
    (.inr ⟨repeatMarkup, ofMarkup_repeatMarkup⟩) [.append 3 2, .setText 3 "new"]
    [.clear 2, .append 2 1]
  have hitem : 3 < t.size := by decide
  exact ⟨ofMarkup_repeatMarkup, hacyclic 2, hsize, (hkept 3 hitem).2⟩

end Surface

end ReactiveView
