import ReactiveView.Proofs.Surface.Throughout
import ReactiveView.Proofs.Surface.WellFormed
/-!
# The markup of surfaces

What a surface shows can be read back, whatever was done to it. Its tree may be one that no markup
stands for: texts may be empty or side by side, and void elements may have children. But tags and
comments only come from markup that was read, and the name of an attribute comes from there too or
was written by an edit, and these are what reading depends on.

Results:
* `writable_apply`: edits that write well-formed names keep all contents writable.
* `writable_fragmentsWithin`: so the fragments of every node can be written.
* `canonical_of_edits`: the markup of every node is read, and is its own canonical text.
-/
namespace ReactiveView

/-- A content whose markup can be read. Nothing is asked of a text. -/
def Content.IsWritable : Content → Prop
  | .element tag attributes => Markup.IsTag tag ∧ Markup.AreAttributes attributes
  | .comment s => Markup.IsComment s
  | .document | .text _ => True

namespace Markup

/-- A name that can stand in a tag, in any case. -/
structure IsWellNamed (name : String) : Prop where
  nonempty : name.toList ≠ []
  inside : ∀ c ∈ name.toList, endsName c = false

theorem isWellNamed_iff {name : String} : IsWellNamed name ↔
    name.toList.isEmpty = false ∧ name.toList.all (fun c => !endsName c) := by
  simp only [List.isEmpty_eq_false_iff, List.all_eq_true, Bool.not_eq_true']
  exact ⟨fun h => ⟨h.nonempty, h.inside⟩, fun h => ⟨h.1, h.2⟩⟩

instance (name : String) : Decidable (IsWellNamed name) := decidable_of_iff _ isWellNamed_iff.symm

theorem IsWellNamed.isName {name : String} (h : IsWellNamed name) :
    IsName (Text.lowered name) where
  nonempty := by
    rw [Text.lowered, String.toList_ofList]
    exact mt List.map_eq_nil_iff.mp h.nonempty
  inside c hc := by
    rw [Text.lowered, String.toList_ofList] at hc
    obtain ⟨d, hd, rfl⟩ := List.mem_map.mp hc
    exact endsName_lower (h.inside d hd)
  lower := Text.lowered_lowered name

theorem areAttributes_insert {attributes : Entries String} (h : AreAttributes attributes)
    {name : String} (hname : IsName name) (value : String) :
    AreAttributes (attributes.insert name value) where
  name a ha := by
    have hkey : a.1 ∈ (attributes.insert name value).keys := List.mem_map_of_mem ha
    rw [Entries.keys_insert] at hkey
    have hcases : a.1 ∈ attributes.keys ∨ a.1 = name := by
      split at hkey
      · exact .inl hkey
      · exact (List.mem_append.mp hkey).imp id List.mem_singleton.mp
    rcases hcases with hold | hnew
    · obtain ⟨b, hb, hab⟩ := List.mem_map.mp hold
      exact hab ▸ h.name b hb
    · exact hnew ▸ hname
  distinct := Entries.nodup_keys_insert h.distinct name value

theorem areAttributes_erase {attributes : Entries String} (h : AreAttributes attributes)
    (name : String) : AreAttributes (attributes.erase name) where
  name a ha := h.name a (List.mem_filter.mp ha).1
  distinct := by
    rw [Entries.keys_erase]
    exact h.distinct.filter _

end Markup

namespace Surface

variable {ℓ : Type} {s s' : Surface ℓ}

/-- The markup of every node can be read, that of nodes outside the document included. -/
def Writable (s : Surface ℓ) : Prop := ∀ i c, s.content? i = some c → c.IsWritable

/-- An edit that writes an attribute gives it a name that can stand in a tag. -/
def Edit.IsWellNamed : Edit → Prop
  | .setAttribute _ name _ => Markup.IsWellNamed name
  | _ => True

/-! ## Edits -/

theorem stable_isWritable : Content.Stable Content.IsWritable where
  document := trivial
  text _ := trivial
  comment _ ht := ht
  element _ _ htag hattributes := ⟨htag, hattributes⟩
  erase _ _ name h := ⟨h.1, Markup.areAttributes_erase h.2 name⟩

theorem Edit.IsWellNamed.spares {e : Edit} (h : e.IsWellNamed) : e.Spares Content.IsWritable := by
  cases e with
  | setAttribute i name value =>
    exact fun _ _ hc => ⟨hc.1, Markup.areAttributes_insert hc.2 (Markup.IsWellNamed.isName h) value⟩
  | _ => trivial

theorem writable_load (hs : Writable s) {source : String} (h : s.load source = .ok s') :
    Writable s' := throughout_load stable_isWritable hs h

/-- An edit keeps all contents writable, also one that refuses. -/
theorem writable_apply (hs : Writable s) {e : Edit} (he : e.IsWellNamed) :
    Writable (s.apply e).2 := throughout_apply stable_isWritable hs he.spares

theorem writable_after (hs : Writable s) {edits : List Edit} (h : ∀ e ∈ edits, e.IsWellNamed) :
    Writable (s.after edits) := by
  induction edits generalizing s with
  | nil => exact hs
  | cons e rest ih =>
    obtain ⟨he, hrest⟩ := List.forall_mem_cons.mp h
    exact ih (writable_apply hs he) hrest

theorem writable_blank : Writable (blank : Surface ℓ) := throughout_blank stable_isWritable

/-! ## Markup -/

theorem writable_fragmentsWithin (hs : Writable s) (levels i : Nat) :
    ∀ f ∈ s.fragmentsWithin levels i, Markup.Writable f := by
  induction levels generalizing i with
  | zero => exact fun f hf => absurd hf List.not_mem_nil
  | succ levels ih =>
    have hbelow : ∀ f ∈ (s.forest.children i).flatMap (s.fragmentsWithin levels),
        Markup.Writable f := by
      intro f hf
      obtain ⟨c, -, hc⟩ := List.mem_flatMap.mp hf
      exact ih c f hc
    rw [fragmentsWithin]
    cases hi : s.content? i with
    | none => exact fun f hf => absurd hf List.not_mem_nil
    | some c =>
      have hc := hs i c hi
      cases c with
      | document => exact hbelow
      | element tag attributes =>
        exact List.forall_mem_singleton.mpr (.element hc.1 hc.2 hbelow)
      | text t => exact List.forall_mem_singleton.mpr (.text t)
      | comment t => exact List.forall_mem_singleton.mpr (.comment hc)

/-- What a surface shows can be read back. After any edits of a blank or a loaded surface that write
no malformed attribute names, the markup of each node and that of its children are read, and are the
canonical texts of what they are read as; and so is every copy of the node as a template, whatever
its item is replaced by. -/
theorem canonical_of_edits (hs : s = blank ∨ ∃ source, ofMarkup source = .ok s)
    (edits : List Edit) (hnames : ∀ e ∈ edits, e.IsWellNamed) :
    let t := s.after edits
    ∀ i < t.size,
      (∃ inner, t.innerMarkup i = .ok inner ∧ Markup.IsCanonical inner) ∧
      ∃ outer template, t.outerMarkup i = .ok outer ∧ Markup.read outer = .ok template ∧
        Markup.write template = outer ∧
        ∀ isDirective item accessor, Markup.IsCanonical
          (Markup.write (Template.substituteAll isDirective item accessor template)) := by
  intro t i hi
  have hstart : Writable s := by
    rcases hs with rfl | ⟨source, hsource⟩
    · exact writable_blank
    · exact writable_load writable_blank hsource
  have ht : Writable t := writable_after hstart hnames
  obtain ⟨c, hc⟩ := exists_content?_of_lt hi
  have hfragments : ∀ f ∈ t.fragments i, Markup.Writable f := writable_fragmentsWithin ht t.size i
  have hinner : ∀ f ∈ (t.forest.children i).flatMap t.fragments, Markup.Writable f := by
    intro f hf
    obtain ⟨d, -, hd⟩ := List.mem_flatMap.mp hf
    exact writable_fragmentsWithin ht t.size d f hd
  obtain ⟨hread, hwrite⟩ := Markup.read_write_of_writable hfragments
  refine ⟨⟨_, ?_, Markup.isCanonical_write hinner⟩, _, _, ?_, hread, hwrite, fun _ _ _ => ?_⟩
  · rw [innerMarkup, children_of_content? hc]
    rfl
  · rw [outerMarkup, content_of_content? hc]
    rfl
  · exact Markup.isCanonical_write (Markup.writable_substituteAll
      (fun f hf => Markup.writable_of_sound (Markup.sound_of_read hread f hf)) _ _ _)

/-- A paragraph with an empty text, two texts side by side and an attribute that needs escapes, and a
text below a line break. -/
def patches : List Edit :=
  [.load "<p></p><br>", .setText 1 "", .fragment "a<!-- -->b", .append 1 4, .append 1 6,
    .setAttribute 1 "Title" "\"", .fragment "c", .append 2 7]

/-- The texts come together, and what is below the line break is left out, in the markup below the
document as in that of the paragraph. -/
theorem canonical_of_edits_patches :
    let t : Surface Unit := blank.after patches
    (∀ e ∈ patches, e.IsWellNamed) ∧ document < t.size ∧
      t.innerMarkup document = .ok "<p title=\"&quot;\">ab</p><br>" ∧
      Markup.IsCanonical "<p title=\"&quot;\">ab</p><br>" ∧
      t.outerMarkup 1 = .ok "<p title=\"&quot;\">ab</p>" ∧
      ∃ template, Markup.read "<p title=\"&quot;\">ab</p>" = .ok template ∧
        Markup.write template = "<p title=\"&quot;\">ab</p>" := by
  intro t
  have hnames : ∀ e ∈ patches, e.IsWellNamed := by
    simp only [patches, List.forall_mem_cons, Edit.IsWellNamed]
    exact ⟨trivial, trivial, trivial, trivial, trivial, by decide +kernel, trivial, trivial,
      List.forall_mem_nil _⟩
  have hdocument : document < t.size := by decide +kernel
  have hfirst : 1 < t.size := by decide +kernel
  have hmarkup : t.innerMarkup document = .ok "<p title=\"&quot;\">ab</p><br>" :=
    eq_ok_of_toOption (by decide +kernel)
  have hparagraph : t.outerMarkup 1 = .ok "<p title=\"&quot;\">ab</p>" :=
    eq_ok_of_toOption (by decide +kernel)
  obtain ⟨⟨inner, hinner, hcanonical⟩, -⟩ :=
    canonical_of_edits (.inl rfl) patches hnames document hdocument
  obtain ⟨-, outer, template, houter, hread, hwrite, -⟩ :=
    canonical_of_edits (.inl rfl) patches hnames 1 hfirst
  cases hmarkup.symm.trans hinner
  cases hparagraph.symm.trans houter
  exact ⟨hnames, hdocument, hmarkup, hcanonical, hparagraph, template, hread, hwrite⟩

end Surface

end ReactiveView
