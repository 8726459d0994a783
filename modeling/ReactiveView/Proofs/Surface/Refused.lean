import ReactiveView.Proofs.Surface.Texts
import ReactiveView.Proofs.Surface.WellFormed
/-!
# Edits that refuse

An edit looks at all that it was given before it changes anything, so one that refuses has changed
nothing. Two edits are made of several steps of which a later one could refuse. A load puts its tops
under the document one by one; they are new and the document takes children, so the load comes to
its end as soon as its markup can be read. The text of a node is made before it is put in; a
document or an element takes it, but a text or a comment refuses it, and the new node stays outside.

Results:
* `setText_of_leaf`: what stays when a text is written into a leaf.
* `apply_load`: a load does as much as its steps one after the other do.
* `apply_of_error`: which refused edits leave the surface as it was.
* `unchanged_iff_of_reached`: both together, for surfaces that can come about.
-/
namespace ReactiveView.Surface

variable {ℓ : Type} {s s' : Surface ℓ}

/-- The edit that writes a text into a text or a comment. -/
def Edit.WritesLeaf (s : Surface ℓ) : Edit → Prop
  | .setText i _ => ∃ c, s.content? i = some c ∧ isLeaf c
  | _ => False

/-! ## Texts written into leaves -/

/-- A leaf refuses a text, which is left without a place. -/
theorem setText_of_leaf (hs : Sound s) {i : Nat} {c : Content} (hi : s.content? i = some c)
    (hc : isLeaf c) (t : String) : s.setText i t
      = (.error (.markup "Cannot append to a text or comment node" 0), s.push (.text t)) := by
  have hnone : s.forest.children i = [] := hs.leaf i c hi hc
  have hlone : s.loneText? i = none := by simp only [loneText?, hnone]
  have hcleared : (⟨(s.push (.text t)).forest.detachChildren i⟩ : Surface ℓ) = s.push (.text t) :=
    congrArg Surface.mk (Forest.detachChildren_of_nil ((Forest.children_push _ i).trans hnone))
  have hold : (s.push (.text t)).content? i = some c := by
    rw [content?_push, if_neg (Nat.ne_of_lt (lt_of_content? hi)), hi]
  have hnew : (s.push (.text t)).content? s.size = some (.text t) := by
    rw [content?_push, if_pos rfl]
  have happend : (s.push (.text t)).append i s.size
      = .error (.markup "Cannot append to a text or comment node" 0) := by
    simp only [append, hold, hnew]
    cases c with
    | text => rfl
    | comment => rfl
    | document => cases hc
    | element => cases hc
  simp only [setText, hi, hlone, hcleared, happend]

/-- A text that is refused was written into nothing, or into a leaf. -/
theorem setText_of_error (hs : Sound s) {i : Nat} {t : String} {err : Error}
    (h : (s.setText i t).1 = .error err) (hleaf : ¬(Edit.setText i t).WritesLeaf s) :
    (s.setText i t).2 = s := by
  cases hi : s.content? i with
  | none => simp only [setText, hi]
  | some c =>
    have hc : isLeaf c = false := Bool.eq_false_iff.mpr fun hc => hleaf ⟨c, hi, hc⟩
    cases hlone : s.loneText? i with
    | some k =>
      obtain ⟨s', hset, -⟩ := setText_of_loneText hi hlone t
      rw [hset] at h
      cases h
    | none =>
      obtain ⟨s', hset, -⟩ := setText_of_no_loneText hs hi hc hlone t
      rw [hset] at h
      cases h

/-! ## Loads, step by step -/

/-- Nodes put at the end of the document one after the other. Where one is refused, those in front
of it are there. -/
def appendAll (s : Surface ℓ) : List Nat → Except Error Unit × Surface ℓ
  | [] => (.ok (), s)
  | top :: rest =>
    match s.append document top with
    | .ok s' => s'.appendAll rest
    | .error e => (.error e, s)

/-- A load that leaves what it has done where a step of it is refused. -/
def loadStepwise (s : Surface ℓ) (source : String) : Except Error Unit × Surface ℓ :=
  match s.parseFragment source with
  | .ok r => r.2.appendAll r.1
  | .error e => (.error e, s)

theorem appendAll_of_foldlM {tops : List Nat}
    (h : tops.foldlM (fun s i => s.append document i) s = .ok s') :
    s.appendAll tops = (.ok (), s') := by
  induction tops generalizing s with
  | nil =>
    cases h
    rfl
  | cons top rest ih =>
    rw [List.foldlM_cons] at h
    cases ha : s.append document top with
    | error e =>
      rw [ha] at h
      cases h
    | ok s₁ =>
      rw [ha] at h
      simp only [appendAll, ha]
      exact ih h

/-- A load comes to its end or does not begin, so nothing has to be undone. -/
theorem apply_load (h : Reached s) (source : String) :
    s.apply (.load source) = s.loadStepwise source := by
  cases hread : Markup.read source with
  | error e =>
    have hparse : s.parseFragment source = .error e := by
      rw [parseFragment, hread]
      rfl
    simp only [apply, load, loadStepwise, hparse]
    rfl
  | ok fs =>
    have hparse : s.parseFragment source = .ok (s.insertAll fs) := by
      rw [parseFragment, hread]
      rfl
    obtain ⟨s', hload⟩ := load_of_read h hread
    have hsteps : (s.insertAll fs).2.appendAll (s.insertAll fs).1 = (.ok (), s') := by
      rw [load, hparse] at hload
      exact appendAll_of_foldlM hload
    simp only [apply, hload, loadStepwise, hparse, hsteps]
    rfl

/-! ## What is left of a refused edit -/

theorem settle_of_error {r : Except Error (Surface ℓ)} {err : Error}
    (h : (s.settle r).1 = .error err) : (s.settle r).2 = s := by
  cases r with
  | ok s' => cases h
  | error e => rfl

/-- Every refused edit leaves the surface as it was, but for a text that is written into a leaf. -/
theorem apply_of_error (hs : Sound s) {e : Edit} {err : Error} (h : (s.apply e).1 = .error err)
    (hleaf : ¬e.WritesLeaf s) : (s.apply e).2 = s := by
  cases e with
  | load source => exact settle_of_error h
  | fragment source =>
    simp only [apply] at h ⊢
    split
    · next tops s' hparse =>
      rw [hparse] at h
      cases h
    · rfl
  | append p c => exact settle_of_error h
  | clear i => exact settle_of_error h
  | setText i t => exact setText_of_error hs h hleaf
  | setAttribute i name value => exact settle_of_error h
  | removeAttribute i name => exact settle_of_error h

/-- The edits of a surface that can come about which leave it as it was when they refuse are all
but the writing of a text into a text or a comment. That one always refuses, and the surface has the
text as a node more, outside the document; nothing else is different. And no load stops half-way:
it does what its steps do, none of them undone. -/
theorem unchanged_iff_of_reached (h : Reached s) :
    (∀ e : Edit, (∀ err, (s.apply e).1 = .error err → (s.apply e).2 = s) ↔ ¬e.WritesLeaf s) ∧
    (∀ i t, (Edit.setText i t).WritesLeaf s → s.apply (.setText i t)
      = (.error (.markup "Cannot append to a text or comment node" 0), s.push (.text t))) ∧
    ∀ source, s.apply (.load source) = s.loadStepwise source := by
  have hs := sound_of_reached h
  have hrefused : ∀ i t, (Edit.setText i t).WritesLeaf s → s.apply (.setText i t)
      = (.error (.markup "Cannot append to a text or comment node" 0), s.push (.text t)) := by
    rintro i t ⟨c, hi, hc⟩
    exact setText_of_leaf hs hi hc t
  refine ⟨fun e => ⟨fun hkept hleaf => ?_, fun hleaf err herr => apply_of_error hs herr hleaf⟩,
    hrefused, apply_load h⟩
  -- with a node more, a surface is not what it was
  cases e with
  | setText i t =>
    have hpush := hrefused i t hleaf
    have hsame : s.push (.text t) = s :=
      (congrArg Prod.snd hpush).symm.trans (hkept _ (congrArg Prod.fst hpush))
    have hsize := congrArg Surface.size hsame
    rw [size_push] at hsize
    exact Nat.succ_ne_self _ hsize
  | load => exact hleaf
  | fragment => exact hleaf
  | append => exact hleaf
  | clear => exact hleaf
  | setAttribute => exact hleaf
  | removeAttribute => exact hleaf

/-- The text of the item of a list takes no text: it stays what it is, and there is a node more. A
list that is put below its own item is refused too, and then nothing is different. -/
theorem unchanged_iff_of_reached_list :
    let s : Surface Unit := repeatSurface
    Reached s ∧
      s.apply (.setText 4 "x") = (.error (.markup "Cannot append to a text or comment node" 0),
        s.push (.text "x")) ∧
      (s.apply (.setText 4 "x")).2 ≠ s ∧ (s.apply (.append 3 2)).2 = s := by
  intro s
  have hreached : Reached s := reached_of_ofMarkup ofMarkup_repeatMarkup
  obtain ⟨hiff, hleaf, -⟩ := unchanged_iff_of_reached hreached
  have hwrites : (Edit.setText 4 "x").WritesLeaf s := ⟨_, rfl, rfl⟩
  refine ⟨hreached, hleaf 4 "x" hwrites, fun hsame => ?_, ?_⟩
  · exact (hiff _).mp (fun _ _ => hsame) hwrites
  · exact (hiff (.append 3 2)).mpr not_false
      (.markup "Cannot append a node to its own subtree" 0) rfl

end ReactiveView.Surface
