import ReactiveView.Proofs.Markup.RoundTrip
import ReactiveView.Template.Substitution
/-!
# Fragments that can be written

Not only what was read can be read back after it is written. A tree that was changed since may hold
empty texts, texts next to each other, and children of void elements, none of which reading makes.
Writing loses all three: an empty text has no characters, texts run together, and what a void
element holds is left out. What is left is what reading would have made (`pruneAll`, then
`mergeAll`), so only the names and the comments matter.

Results:
* `writeAll_pruneAll`, `sound_pruneAll`: pruning leaves what is written, and makes sound fragments.
* `read_write_of_writable`: the text of writable fragments is read, and is its own canonical text.
* `writable_substituteAll`: substitution in a template keeps its fragments writable.
-/
namespace ReactiveView.Markup

open Text

/-- Fragments whose text can be read. Nothing is asked of texts, nor of where they stand, nor of what
may have children. -/
inductive Writable : Fragment → Prop
  | text (s : String) : Writable (.text s)
  | comment {s : String} (hs : IsComment s) : Writable (.comment s)
  | element {tag : String} {attributes : Entries String} {children : List Fragment}
      (htag : IsTag tag) (hattributes : AreAttributes attributes)
      (hchildren : ∀ f ∈ children, Writable f) : Writable (.element tag attributes children)

/-- A text that can be read, and that is the canonical text of what it is read as. -/
def IsCanonical (source : String) : Prop := ∃ fs, read source = .ok fs ∧ write fs = source

theorem writable_of_sound {row : List Fragment → Prop} {f : Fragment} (h : Sound row f) :
    Writable f := by
  induction h with
  | text _ => exact .text _
  | comment hs => exact .comment hs
  | element htag hattributes _ _ _ ih => exact .element htag hattributes ih

/-! ## Pruning -/

/-- Whether a fragment is a text without characters. -/
def isEmptyText : Fragment → Bool
  | .text s => s.toList.isEmpty
  | .comment _ => false
  | .element .. => false

mutual

/-- A fragment with what is not written left out inside it. -/
def pruneOne : Fragment → Fragment
  | .element tag attributes children =>
    .element tag attributes (if Fragment.isVoid tag then [] else pruneAll children)
  | .text s => .text s
  | .comment s => .comment s

/-- Fragments in a row, with what is not written left out. -/
def pruneAll : List Fragment → List Fragment
  | [] => []
  | f :: rest => if isEmptyText f then pruneAll rest else pruneOne f :: pruneAll rest

end

theorem writeOne_of_isEmptyText {f : Fragment} (h : isEmptyText f) (after : List Char) :
    writeOne f after = after := by
  cases f with
  | text s =>
    have hs : s.toList = [] := List.isEmpty_iff.mp h
    simp only [writeOne, Token.write, hs]
    rfl
  | comment s => cases h
  | element => cases h

mutual

theorem writeOne_pruneOne (f : Fragment) (after : List Char) :
    writeOne (pruneOne f) after = writeOne f after := by
  cases f with
  | text s => rfl
  | comment s => rfl
  | element tag attributes children =>
    simp only [pruneOne, writeOne]
    by_cases hv : Fragment.isVoid tag
    · rw [if_pos hv, if_pos hv]
    · rw [if_neg hv, if_neg hv, if_neg hv, writeAll_pruneAll children]

/-- Pruning does not change what is written. -/
theorem writeAll_pruneAll (fs : List Fragment) (after : List Char) :
    writeAll (pruneAll fs) after = writeAll fs after := by
  cases fs with
  | nil => rfl
  | cons f rest =>
    rw [pruneAll, writeAll]
    by_cases hf : isEmptyText f
    · rw [if_pos hf, writeAll_pruneAll rest, writeOne_of_isEmptyText hf]
    · rw [if_neg hf, writeAll, writeAll_pruneAll rest, writeOne_pruneOne f]

end

theorem sound_pruneAll_of {fs : List Fragment}
    (h : ∀ f ∈ fs, isEmptyText f = false → Sound Loose (pruneOne f)) :
    ∀ f ∈ pruneAll fs, Sound Loose f := by
  induction fs with
  | nil => exact fun f hf => absurd hf List.not_mem_nil
  | cons f rest ih =>
    obtain ⟨hfirst, hrest⟩ := List.forall_mem_cons.mp h
    rw [pruneAll]
    by_cases hf : isEmptyText f
    · rw [if_pos hf]
      exact ih hrest
    · rw [if_neg hf]
      exact List.forall_mem_cons.mpr ⟨hfirst (Bool.eq_false_iff.mpr hf), ih hrest⟩

theorem sound_pruneOne {f : Fragment} (h : Writable f) (hf : isEmptyText f = false) :
    Sound Loose (pruneOne f) := by
  induction h with
  | text s => exact .text fun hs => by simp [isEmptyText, hs] at hf
  | comment hs => exact .comment hs
  | @element tag attributes children htag hattributes _ ih =>
    rw [pruneOne]
    by_cases hv : Fragment.isVoid tag
    · rw [if_pos hv]
      exact .element htag hattributes (fun _ => rfl) trivial fun g hg => absurd hg List.not_mem_nil
    · rw [if_neg hv]
      exact .element htag hattributes (fun hv' => absurd hv' hv) trivial (sound_pruneAll_of ih)

/-- What writable fragments are pruned to, reading can make. -/
theorem sound_pruneAll {fs : List Fragment} (h : ∀ f ∈ fs, Writable f) :
    ∀ f ∈ pruneAll fs, Sound Loose f :=
  sound_pruneAll_of fun f hf => sound_pruneOne (h f hf)

/-- The text of writable fragments is read as what is left of them in it. -/
theorem read_write_of_writable {fs : List Fragment} (h : ∀ f ∈ fs, Writable f) :
    read (write fs) = .ok (mergeAll (pruneAll fs)) ∧
      write (mergeAll (pruneAll fs)) = write fs := by
  have hprune : write (pruneAll fs) = write fs := congrArg String.ofList (writeAll_pruneAll fs [])
  obtain ⟨hread, hwrite⟩ := read_write_merged (sound_pruneAll h)
  rw [hprune] at hread hwrite
  exact ⟨hread, hwrite⟩

theorem isCanonical_write {fs : List Fragment} (h : ∀ f ∈ fs, Writable f) :
    IsCanonical (write fs) :=
  ⟨_, read_write_of_writable h⟩

/-- An empty text, texts that meet, and a child of a void element. -/
example : pruneAll [.text "", .text "a", .text "b", .element "br" [] [.text "c"]]
    = [.text "a", .text "b", .element "br" [] []] := by decide

/-! ## Substitution -/

theorem keys_substituteAttribute (isDirective : String → Bool) (item accessor : List Char)
    (attributes : Entries String) :
    Entries.keys (attributes.map (Template.substituteAttribute isDirective item accessor))
      = attributes.keys := by
  rw [Entries.keys, Entries.keys, List.map_map]
  rfl

/-- Substitution writes texts and attribute values only. -/
theorem areAttributes_substitute {attributes : Entries String} (h : AreAttributes attributes)
    (isDirective : String → Bool) (item accessor : List Char) :
    AreAttributes (attributes.map (Template.substituteAttribute isDirective item accessor)) where
  name a ha := by
    obtain ⟨b, hb, rfl⟩ := List.mem_map.mp ha
    exact h.name b hb
  distinct := by
    rw [keys_substituteAttribute]
    exact h.distinct

theorem substituteAll_eq_map (isDirective : String → Bool) (item accessor : List Char)
    (fs : List Fragment) : Template.substituteAll isDirective item accessor fs
      = fs.map (Template.substituteOne isDirective item accessor) := by
  induction fs with
  | nil => rw [Template.substituteAll]; rfl
  | cons f rest ih => rw [Template.substituteAll, ih]; rfl

theorem writable_substituteOne {f : Fragment} (h : Writable f) (isDirective : String → Bool)
    (item accessor : List Char) :
    Writable (Template.substituteOne isDirective item accessor f) := by
  induction h with
  | text s =>
    rw [Template.substituteOne]
    exact .text _
  | comment hs =>
    rw [Template.substituteOne]
    exact .comment hs
  | element htag hattributes _ ih =>
    rw [Template.substituteOne, substituteAll_eq_map]
    refine .element htag (areAttributes_substitute hattributes _ _ _) fun g hg => ?_
    obtain ⟨f, hf, rfl⟩ := List.mem_map.mp hg
    exact ih f hf

/-- The copies of a template can be written as the template can. -/
theorem writable_substituteAll {fs : List Fragment} (h : ∀ f ∈ fs, Writable f)
    (isDirective : String → Bool) (item accessor : List Char) :
    ∀ f ∈ Template.substituteAll isDirective item accessor fs, Writable f := by
  rw [substituteAll_eq_map]
  intro g hg
  obtain ⟨f, hf, rfl⟩ := List.mem_map.mp hg
  exact writable_substituteOne (h f hf) isDirective item accessor

end ReactiveView.Markup
