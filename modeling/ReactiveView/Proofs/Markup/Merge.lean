import ReactiveView.Markup.Tree
import ReactiveView.Proofs.Markup.Escape
/-!
# Merged texts

A `<` that starts no tag is a text of its own, so reading can put texts next to each other, and in
writing the border between them is lost. `mergeAll` joins them, at every level.

`Sound` is what holds of every fragment that reading makes; merging adds `Spread`, that no level
has texts next to each other.

Results:
* `writeAll_mergeAll`: merging does not change what is written.
* `sound_mergeAll`: merging keeps `Sound` and spreads the texts of each level.
-/
namespace ReactiveView.Markup

open Text

/-- A fragment in front of others; two texts that meet become one. -/
def join : Fragment → List Fragment → List Fragment
  | .text s, .text t :: rest => .text (s ++ t) :: rest
  | f, rest => f :: rest

mutual

/-- A fragment with the texts inside it merged. -/
def mergeOne : Fragment → Fragment
  | .element tag attributes children => .element tag attributes (mergeAll children)
  | .text s => .text s
  | .comment s => .comment s

/-- Fragments in a row with all adjacent texts merged. -/
def mergeAll : List Fragment → List Fragment
  | [] => []
  | f :: rest => join (mergeOne f) (mergeAll rest)

end

/-! ## What is written -/

theorem writeAll_join (f : Fragment) (fs : List Fragment) (after : List Char) :
    writeAll (join f fs) after = writeOne f (writeAll fs after) := by
  unfold join
  split
  · simp only [writeAll, writeOne, Token.write, String.toList_append, escapeText_append,
      List.append_assoc]
  · rfl

mutual

theorem writeOne_mergeOne (f : Fragment) (after : List Char) :
    writeOne (mergeOne f) after = writeOne f after := by
  cases f with
  | text s => rfl
  | comment s => rfl
  | element tag attributes children =>
    simp only [mergeOne, writeOne]
    rw [writeAll_mergeAll children]

/-- Merging does not change what is written. -/
theorem writeAll_mergeAll (fs : List Fragment) (after : List Char) :
    writeAll (mergeAll fs) after = writeAll fs after := by
  cases fs with
  | nil => rfl
  | cons f rest =>
    simp only [mergeAll, writeAll]
    rw [writeAll_join, writeAll_mergeAll rest, writeOne_mergeOne f]

end

/-! ## Spread texts -/

/-- Whether a fragment is a text. -/
def isText : Fragment → Bool
  | .text _ => true
  | .comment _ => false
  | .element .. => false

/-- No two texts in a row are next to each other. -/
def Spread : List Fragment → Prop
  | [] => True
  | f :: rest => (isText f → ∀ g ∈ rest.head?, isText g = false) ∧ Spread rest

theorem spread_join {f : Fragment} {fs : List Fragment} (h : Spread fs) : Spread (join f fs) := by
  unfold join
  split
  · exact ⟨fun _ => h.1 rfl, h.2⟩
  · next hne =>
    refine ⟨fun hf g hg => ?_, h⟩
    obtain ⟨rest, rfl⟩ : ∃ rest, fs = g :: rest := List.head?_eq_some_iff.mp hg
    cases g with
    | text t =>
      cases f with
      | text s => exact absurd rfl (hne s t rest rfl)
      | comment s => cases hf
      | element => cases hf
    | comment s => rfl
    | element => rfl

theorem spread_mergeAll (fs : List Fragment) : Spread (mergeAll fs) := by
  induction fs with
  | nil => exact trivial
  | cons f rest ih => exact spread_join ih

/-! ## Sound fragments -/

/-- A name as reading gives it: not empty, free of the characters that end it, in lower case. -/
structure IsName (name : String) : Prop where
  nonempty : name.toList ≠ []
  inside : ∀ c ∈ name.toList, endsName c = false
  lower : lowered name = name

/-- A tag is a name that starts with a basic letter. -/
structure IsTag (tag : String) : Prop extends IsName tag where
  letter : ∀ c ∈ tag.toList.head?, isBasicLetter c

/-- A text that a comment can hold: the mark after it is the first one, whatever comes next. -/
def IsComment (s : String) : Prop :=
  ∀ after, cut "-->".toList (s.toList ++ "-->".toList ++ after) = some (s.toList, after)

/-- The attributes of a tag: each has a name, all of them different. -/
structure AreAttributes (attributes : Entries String) : Prop where
  name : ∀ a ∈ attributes, IsName a.1
  distinct : attributes.keys.Nodup

/-- Fragments that reading can make, where at each level the children satisfy `row`. -/
inductive Sound (row : List Fragment → Prop) : Fragment → Prop
  | text {s : String} (hs : s.toList ≠ []) : Sound row (.text s)
  | comment {s : String} (hs : IsComment s) : Sound row (.comment s)
  | element {tag : String} {attributes : Entries String} {children : List Fragment}
      (htag : IsTag tag) (hattributes : AreAttributes attributes)
      (hvoid : Fragment.isVoid tag → children = []) (hrow : row children)
      (hchildren : ∀ f ∈ children, Sound row f) : Sound row (.element tag attributes children)

theorem sound_join {row : List Fragment → Prop} {f : Fragment} {fs : List Fragment}
    (hf : Sound row f) (hfs : ∀ g ∈ fs, Sound row g) : ∀ g ∈ join f fs, Sound row g := by
  unfold join
  split
  · next s t rest =>
    intro g hg
    rcases List.mem_cons.mp hg with rfl | hg
    · cases hf with
      | text hs => exact .text (by simp [hs])
    · exact hfs g (by simp [hg])
  · intro g hg
    rcases List.mem_cons.mp hg with rfl | hg
    · exact hf
    · exact hfs g hg

theorem sound_mergeAll_of {row : List Fragment → Prop} {fs : List Fragment}
    (h : ∀ f ∈ fs, Sound row (mergeOne f)) : ∀ f ∈ mergeAll fs, Sound row f := by
  induction fs with
  | nil => exact fun f hf => absurd hf List.not_mem_nil
  | cons f rest ih =>
    exact sound_join (h f (by simp)) (ih fun g hg => h g (by simp [hg]))

theorem sound_mergeOne {row : List Fragment → Prop} {f : Fragment} (h : Sound row f) :
    Sound Spread (mergeOne f) := by
  induction h with
  | text hs => exact .text hs
  | comment hs => exact .comment hs
  | element htag hattributes hvoid _ _ ih =>
    exact .element htag hattributes (fun hv => by rw [hvoid hv]; rfl) (spread_mergeAll _)
      (sound_mergeAll_of ih)

/-- Merging keeps fragments sound and spreads the texts of each level. -/
theorem sound_mergeAll {row : List Fragment → Prop} {fs : List Fragment}
    (h : ∀ f ∈ fs, Sound row f) : ∀ f ∈ mergeAll fs, Sound Spread f :=
  sound_mergeAll_of fun f hf => sound_mergeOne (h f hf)

end ReactiveView.Markup
