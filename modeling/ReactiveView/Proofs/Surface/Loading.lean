import ReactiveView.Proofs.Surface.WellFormed
/-!
# Loaded markup

Markup comes as a tree, and a surface keeps its nodes by number with links between them. The nodes
of fragments are numbered in the order in which their texts start, each fragment before what is in
it, so a row of fragments takes up a row of numbers, and all links can be told from where each
fragment ends. `Holds` says this, and everything that is read from the nodes follows from it: the
contents by their numbers, the fragments that the links give back, and the texts in order.

A surface can also be written without its fragments, by a walk along the links. The text is the same
one on every surface, loaded or not.

Results:
* `writeWithin_eq`, `innerMarkup_eq_walk`: the walk writes what the fragments of a node are written
  as.
* `holds_insert`, `holds_insertUnder`: new nodes hold the fragment that they were made from.
* `holds_load`: so do those of a load, and the document has them as its last children.
* `fragments_of_read`: the markup that a surface was made from is all of the surface.
-/
namespace ReactiveView

/-- The text of a text; other contents have none. -/
def Content.text? : Content → Option String
  | .text s => some s
  | .document => none
  | .element .. => none
  | .comment _ => none

/-! ## Fragments by their order -/

namespace Fragment

/-- What the node of a fragment is. -/
def content : Fragment → Content
  | .element tag attributes _ => .element tag attributes
  | .text s => .text s
  | .comment s => .comment s

/-- What is directly in a fragment. -/
def children : Fragment → List Fragment
  | .element _ _ children => children
  | .text _ => []
  | .comment _ => []

/-- The text of a text; other fragments have none of their own. -/
def text? : Fragment → Option String
  | .text s => some s
  | .element .. => none
  | .comment _ => none

theorem text?_content (f : Fragment) : f.content.text? = f.text? := by
  cases f <;> rfl

mutual

/-- A fragment and what is in it, each before what is in that. -/
def preorderOne : Fragment → List Fragment
  | .element tag attributes children => .element tag attributes children :: preorder children
  | .text s => [.text s]
  | .comment s => [.comment s]

/-- Fragments in a row and what is in them, each before what is in that. -/
def preorder : List Fragment → List Fragment
  | [] => []
  | f :: rest => preorderOne f ++ preorder rest

end

theorem preorder_cons (f : Fragment) (rest : List Fragment) :
    preorder (f :: rest) = f :: (preorder f.children ++ preorder rest) := by
  rw [preorder]
  cases f with
  | element tag attributes children => rw [preorderOne]; rfl
  | text s => rw [preorderOne]; rfl
  | comment s => rw [preorderOne]; rfl

end Fragment

namespace Surface

variable {ℓ : Type} {s s' : Surface ℓ}

/-! ## Writing along the links -/

/-- The canonical text of a node and what is below it, as far as a number of levels, in front of
what comes after it. -/
def writeWithin (s : Surface ℓ) : Nat → Nat → List Char → List Char
  | 0, _, after => after
  | levels + 1, i, after =>
    match s.content? i with
    | none => after
    | some .document => (s.forest.children i).foldr (s.writeWithin levels) after
    | some (.text t) => (Markup.Token.text t).write ++ after
    | some (.comment t) => (Markup.Token.comment t).write ++ after
    | some (.element tag attributes) =>
      (Markup.Token.opening tag attributes false).write ++
        if Fragment.isVoid tag then after
        else (s.forest.children i).foldr (s.writeWithin levels)
          ((Markup.Token.closing tag).write ++ after)

/-- The canonical text of what is below a node. -/
def writeBelow (s : Surface ℓ) (i : Nat) : String :=
  String.ofList ((s.forest.children i).foldr (s.writeWithin s.size) [])

theorem writeAll_row (fs gs : List Fragment) (after : List Char) :
    Markup.writeAll (fs ++ gs) after = Markup.writeAll fs (Markup.writeAll gs after) := by
  induction fs with
  | nil => rfl
  | cons f rest ih => rw [List.cons_append, Markup.writeAll, ih, Markup.writeAll]

/-- A row of nodes is written as their fragments are, once each node is. -/
theorem foldr_writeWithin {levels : Nat} (h : ∀ c after,
    s.writeWithin levels c after = Markup.writeAll (s.fragmentsWithin levels c) after)
    (cs : List Nat) (after : List Char) : cs.foldr (s.writeWithin levels) after
      = Markup.writeAll (cs.flatMap (s.fragmentsWithin levels)) after := by
  induction cs with
  | nil => rfl
  | cons c rest ih => rw [List.foldr_cons, ih, h, List.flatMap_cons, writeAll_row]

/-- The walk along the links writes what the fragments of a node are written as. -/
theorem writeWithin_eq (levels i : Nat) (after : List Char) :
    s.writeWithin levels i after = Markup.writeAll (s.fragmentsWithin levels i) after := by
  induction levels generalizing i after with
  | zero => rfl
  | succ levels ih =>
    have hrow := foldr_writeWithin ih (s.forest.children i)
    rw [writeWithin, fragmentsWithin]
    cases s.content? i with
    | none => rfl
    | some c =>
      cases c with
      | document => exact hrow after
      | text t => rfl
      | comment t => rfl
      | element tag attributes =>
        simp only [Markup.writeAll, Markup.writeOne]
        split
        · rfl
        · rw [hrow]

theorem innerMarkup_eq_walk (s : Surface ℓ) (i : Nat) :
    s.innerMarkup i = (s.content i).map fun _ => s.writeBelow i := by
  rw [innerMarkup, Surface.children]
  cases s.content i with
  | error e => rfl
  | ok c =>
    have hrow := foldr_writeWithin (s := s) (writeWithin_eq s.size) (s.forest.children i) []
    exact congrArg (fun cs => Except.ok (String.ofList cs)) hrow.symm

/-! ## Nodes in the order of fragments -/

/-- The nodes from one number up to another are those of fragments in a row: each node is what its
fragment is, and is followed by the nodes of its children. The fragments themselves have the given
numbers. -/
inductive Holds (s : Surface ℓ) : Nat → List Fragment → List Nat → Nat → Prop
  | nil (i : Nat) : Holds s i [] [] i
  | cons {i j k : Nat} {f : Fragment} {rest : List Fragment} {tops : List Nat}
      (content : s.content? i = some f.content)
      (inside : Holds s (i + 1) f.children (s.forest.children i) j)
      (next : Holds s j rest tops k) : Holds s i (f :: rest) (i :: tops) k

variable {i j k : Nat} {fs gs : List Fragment} {tops tops' : List Nat}

theorem Holds.le (h : Holds s i fs tops j) : i ≤ j := by
  induction h with
  | nil i => exact Nat.le_refl i
  | cons _ _ _ hinside hnext => omega

theorem Holds.append (h : Holds s i fs tops j) (h' : Holds s j gs tops' k) :
    Holds s i (fs ++ gs) (tops ++ tops') k := by
  induction h with
  | nil i => exact h'
  | cons hcontent hinside _ _ ih => exact .cons hcontent hinside (ih h')

/-- What becomes of other nodes does not matter. -/
theorem Holds.congr (h : Holds s i fs tops j) (hcontent : ∀ n, i ≤ n → n < j →
    s'.content? n = s.content? n) (hchildren : ∀ n, i ≤ n → n < j →
    s'.forest.children n = s.forest.children n) : Holds s' i fs tops j := by
  induction h with
  | nil i => exact .nil i
  | @cons i j k f rest tops hf hinside hnext ihinside ihnext =>
    have hij := hinside.le
    have hjk := hnext.le
    refine .cons ((hcontent i (Nat.le_refl i) (by omega)).trans hf) ?_
      (ihnext (fun n hn => hcontent n (by omega)) fun n hn => hchildren n (by omega))
    rw [hchildren i (Nat.le_refl i) (by omega)]
    exact ihinside (fun n hn hlt => hcontent n (by omega) (by omega))
      fun n hn hlt => hchildren n (by omega) (by omega)

theorem Holds.bounds (h : Holds s i fs tops j) : ∀ top ∈ tops, i ≤ top ∧ top < j := by
  induction h with
  | nil i => exact List.forall_mem_nil _
  | cons _ hinside hnext _ ih =>
    have hij := hinside.le
    have hjk := hnext.le
    refine List.forall_mem_cons.mpr ⟨by omega, fun top htop => ?_⟩
    have := ih top htop
    omega

theorem Holds.nodup (h : Holds s i fs tops j) : tops.Nodup := by
  induction h with
  | nil i => exact List.nodup_nil
  | cons _ hinside hnext _ ih =>
    refine List.nodup_cons.mpr ⟨fun hmem => ?_, ih⟩
    have hij := hinside.le
    have := hnext.bounds _ hmem
    omega

theorem Holds.end_eq (h : Holds s i fs tops j) : j = i + (Fragment.preorder fs).length := by
  induction h with
  | nil i => rfl
  | cons _ _ _ hinside hnext =>
    rw [Fragment.preorder_cons, List.length_cons, List.length_append]
    omega

/-- The contents of the nodes are those of the fragments, in order. -/
theorem Holds.contents (h : Holds s i fs tops j) :
    (List.range' i (Fragment.preorder fs).length).map s.content?
      = (Fragment.preorder fs).map fun f => some f.content := by
  induction h with
  | nil i => rfl
  | @cons i j k f rest tops hcontent hinside hnext ihinside ihnext =>
    have hend := hinside.end_eq
    rw [Fragment.preorder_cons, List.length_cons, List.length_append, List.range'_succ,
      ← List.range'_append_1, ← hend, List.map_cons, List.map_append, ihinside, ihnext, hcontent,
      List.map_cons, List.map_append]

/-- The links give the fragments back. -/
theorem Holds.fragments (h : Holds s i fs tops j) {levels : Nat} (hlevels : j ≤ i + levels) :
    tops.flatMap (s.fragmentsWithin levels) = fs := by
  induction h generalizing levels with
  | nil i => rfl
  | @cons i j k f rest tops hcontent hinside hnext ihinside ihnext =>
    have hij := hinside.le
    have hjk := hnext.le
    obtain ⟨levels, rfl⟩ : ∃ n, levels = n + 1 := ⟨levels - 1, by omega⟩
    have hbelow : (s.forest.children i).flatMap (s.fragmentsWithin levels) = f.children :=
      ihinside (by omega)
    rw [List.flatMap_cons, ihnext (by omega), fragmentsWithin, hcontent, hbelow]
    cases f <;> rfl

/-- What is below the fragments is all between their ends, in the order of the numbers. -/
theorem Holds.descendants (h : Holds s i fs tops j) {levels : Nat} (hlevels : j ≤ i + levels) :
    (tops.flatMap fun c => c :: s.forest.descendantsWithin levels c)
      = List.range' i (Fragment.preorder fs).length := by
  induction h generalizing levels with
  | nil i => rfl
  | @cons i j k f rest tops hcontent hinside hnext ihinside ihnext =>
    have hij := hinside.le
    have hjk := hnext.le
    have hend := hinside.end_eq
    obtain ⟨levels, rfl⟩ : ∃ n, levels = n + 1 := ⟨levels - 1, by omega⟩
    have hbelow : s.forest.descendantsWithin (levels + 1) i
        = List.range' (i + 1) (Fragment.preorder f.children).length := ihinside (by omega)
    rw [List.flatMap_cons, ihnext (by omega), hbelow,
      Fragment.preorder_cons, List.length_cons, List.length_append, List.range'_succ,
      ← List.range'_append_1, ← hend, List.cons_append]

theorem join_map_text (fs : List Fragment) : String.join (fs.map fun f => f.text?.getD "")
    = String.join (fs.filterMap Fragment.text?) := by
  induction fs with
  | nil => rfl
  | cons f rest ih =>
    rw [List.map_cons, String.join_cons, ih]
    cases f with
    | text t => exact String.join_cons.symm
    | element => exact String.empty_append
    | comment => exact String.empty_append

theorem ownText_eq (s : Surface ℓ) (i : Nat) :
    s.ownText i = ((s.content? i).bind Content.text?).getD "" := by
  rw [ownText]
  cases s.content? i with
  | none => rfl
  | some c => cases c <;> rfl

/-- The texts of the nodes, joined, are those of the fragments. -/
theorem Holds.texts (h : Holds s i fs tops j) :
    String.join ((List.range' i (Fragment.preorder fs).length).map s.ownText)
      = String.join ((Fragment.preorder fs).filterMap Fragment.text?) := by
  have hown : s.ownText = (fun c => (c.bind Content.text?).getD "") ∘ s.content? :=
    funext fun i => ownText_eq s i
  have hfragment : ∀ f : Fragment, ((some f.content).bind Content.text?).getD ""
      = f.text?.getD "" := fun f => by rw [Option.bind_some, Fragment.text?_content]
  rw [hown, ← List.map_map, h.contents, List.map_map, ← join_map_text]
  exact congrArg String.join (List.map_congr_left fun f _ => hfragment f)

/-! ## New nodes -/

mutual

/-- A fragment becomes nodes behind those that are there, which stay as they are; its top stands
alone. -/
theorem holds_insert (s : Surface ℓ) (hs : Sound s) (f : Fragment) :
    Holds (s.insert f) s.size [f] [s.size] (s.insert f).size ∧
    (∀ i < s.size, (s.insert f).forest.children i = s.forest.children i) ∧
    ∀ i ≤ s.size, (s.insert f).forest.parent? i = s.forest.parent? i := by
  have hnew : s.forest.children s.size = [] := Forest.children_of_size_le (Nat.le_refl _)
  cases f with
  | text t =>
    rw [insert, size_push]
    exact ⟨.cons (by rw [content?_push, if_pos rfl]; rfl)
      (by rw [push, Forest.children_push, hnew]; exact .nil _) (.nil _),
      fun i _ => Forest.children_push _ i, fun i _ => Forest.parent?_push _ i⟩
  | comment t =>
    rw [insert, size_push]
    exact ⟨.cons (by rw [content?_push, if_pos rfl]; rfl)
      (by rw [push, Forest.children_push, hnew]; exact .nil _) (.nil _),
      fun i _ => Forest.children_push _ i, fun i _ => Forest.parent?_push _ i⟩
  | element tag attributes children =>
    rw [insert]
    have htop : (s.push (.element tag attributes)).content? s.size
        = some (.element tag attributes) := by
      rw [content?_push, if_pos rfl]
    have hchildren : ∀ i, (s.push (.element tag attributes)).forest.children i
        = s.forest.children i := Forest.children_push _
    obtain ⟨tops, hholds, hlinks, hparents⟩ :=
      holds_insertUnder _ (sound_push hs _) s.size _ htop rfl children
    obtain ⟨-, hext⟩ := insertUnder_sound _ (sound_push hs _) s.size _ htop rfl children
    rw [size_push] at hholds hlinks hparents
    refine ⟨.cons ((hext.content _ (lt_of_content? htop)).trans htop) ?_ (.nil _),
      fun i hi => ?_, fun i hi => ?_⟩
    · rw [hlinks _ (Nat.lt_succ_self _), if_pos rfl, hchildren, hnew]
      exact hholds
    · rw [hlinks i (by omega), if_neg (by omega), hchildren]
    · rw [hparents i (by omega)]
      exact Forest.parent?_push _ i

/-- Fragments in a row become the last children of a node. -/
theorem holds_insertUnder (s : Surface ℓ) (hs : Sound s) (p : Nat) (d : Content)
    (hp : s.content? p = some d) (hd : isLeaf d = false) (fs : List Fragment) :
    ∃ tops, Holds (insertUnder p s fs) s.size fs tops (insertUnder p s fs).size ∧
      (∀ i < s.size, (insertUnder p s fs).forest.children i
        = if p = i then s.forest.children i ++ tops else s.forest.children i) ∧
      ∀ i < s.size, (insertUnder p s fs).forest.parent? i = s.forest.parent? i := by
  cases fs with
  | nil =>
    rw [insertUnder]
    exact ⟨[], .nil _, fun i _ => by simp, fun _ _ => rfl⟩
  | cons f rest =>
    rw [insertUnder]
    have hlow := lt_of_content? hp
    obtain ⟨hsound, hext, hlt⟩ := insert_sound s hs f
    obtain ⟨hfirst, hchildren, hparents⟩ := holds_insert s hs f
    have hp' : (s.insert f).content? p = some d := (hext.content p hlow).trans hp
    have hp'' : ((s.insert f).attach p s.size).content? p = some d :=
      (content?_attach p s.size p).trans hp'
    have halone : (s.insert f).forest.parent? s.size = none :=
      (hparents _ (Nat.le_refl _)).trans (Forest.parent?_of_size_le (Nat.le_refl _))
    have hattach := Forest.children_attach_of_top hsound.linked (lt_of_content? hp') halone
    have hattached := sound_attach hsound hp' hd hlt
    obtain ⟨tops, hrest, hlinks, hkept⟩ := holds_insertUnder _ hattached p d hp'' hd rest
    obtain ⟨-, hlast⟩ := insertUnder_sound _ hattached p d hp'' hd rest
    rw [size_attach] at hrest hlinks hkept
    refine ⟨s.size :: tops, .append (.congr hfirst (fun n hn hlt => ?_) fun n hn hlt => ?_) hrest,
      fun i hi => ?_, fun i hi => ?_⟩
    · rw [hlast.content n (by rwa [size_attach]), content?_attach]
    · rw [hlinks n hlt, if_neg (by omega)]
      exact (hattach n).trans (if_neg (by omega))
    · rw [hlinks i (by omega), attach, hattach i, hchildren i hi]
      split <;> simp
    · rw [hkept i (by omega)]
      exact (Forest.parent?_attach hlt p i).trans ((if_neg (by omega)).trans (hparents i (by omega)))

end

/-- Fragments in a row become nodes outside the document, and each one's top stands alone. -/
theorem holds_insertAll (hs : Sound s) (fs : List Fragment) :
    Holds (s.insertAll fs).2 s.size fs (s.insertAll fs).1 (s.insertAll fs).2.size ∧
    Extends s (s.insertAll fs).2 ∧
    (∀ i < s.size, (s.insertAll fs).2.forest.children i = s.forest.children i) ∧
    (∀ i < s.size, (s.insertAll fs).2.forest.parent? i = s.forest.parent? i) ∧
    ∀ top ∈ (s.insertAll fs).1, (s.insertAll fs).2.forest.parent? top = none := by
  induction fs generalizing s with
  | nil => exact ⟨.nil _, .refl s, fun _ _ => rfl, fun _ _ => rfl, List.forall_mem_nil _⟩
  | cons f rest ih =>
    obtain ⟨hsound, hext, hlt⟩ := insert_sound s hs f
    obtain ⟨hfirst, hchildren, hparents⟩ := holds_insert s hs f
    obtain ⟨hrest, hlast, hlinks, hkept, htops⟩ := ih hsound
    simp only [insertAll]
    refine ⟨.append (.congr hfirst (fun n _ => hlast.content n) fun n _ => hlinks n) hrest,
      hext.trans hlast, fun i hi => (hlinks i (by omega)).trans (hchildren i hi),
      fun i hi => (hkept i (by omega)).trans (hparents i (by omega)),
      List.forall_mem_cons.mpr ⟨?_, htops⟩⟩
    rw [hkept _ hlt, hparents _ (Nat.le_refl _)]
    exact Forest.parent?_of_size_le (Nat.le_refl _)

/-- Nodes that stand alone become the last children of the document, and nothing else changes. -/
theorem children_foldlM_append (hs : Sound s) (hnodup : tops.Nodup)
    (htops : ∀ top ∈ tops, s.forest.parent? top = none)
    (h : tops.foldlM (fun s i => s.append document i) s = .ok s') :
    s'.size = s.size ∧ (∀ i, s'.content? i = s.content? i) ∧ ∀ i, s'.forest.children i
      = if document = i then s.forest.children i ++ tops else s.forest.children i := by
  induction tops generalizing s with
  | nil =>
    cases h
    exact ⟨rfl, fun _ => rfl, fun i => by simp⟩
  | cons top rest ih =>
    rw [List.foldlM_cons] at h
    cases ha : s.append document top with
    | error e =>
      rw [ha] at h
      cases h
    | ok s₁ =>
      rw [ha] at h
      obtain ⟨rfl, d, e, hp, hd, hc⟩ := append_eq_ok ha
      obtain ⟨hnotin, hnodup⟩ := List.nodup_cons.mp hnodup
      obtain ⟨htop, htops⟩ := List.forall_mem_cons.mp htops
      have halone : ∀ t ∈ rest, (s.attach document top).forest.parent? t = none := by
        intro t ht
        have hne : top ≠ t := fun heq => hnotin (heq ▸ ht)
        rw [attach, Forest.parent?_attach (lt_of_content? hc), if_neg hne]
        exact htops t ht
      obtain ⟨hsize, hcontent, hchildren⟩ :=
        ih (sound_attach hs hp hd (lt_of_content? hc)) hnodup halone h
      refine ⟨hsize.trans (size_attach _ _), fun i => (hcontent i).trans (content?_attach _ _ i),
        fun i => ?_⟩
      rw [hchildren i, attach,
        Forest.children_attach_of_top hs.linked (lt_of_content? hp) htop i]
      split <;> simp

/-- A load makes nodes behind those that are there, and gives the document the tops as its last
children. -/
theorem holds_load (h : Reached s) {source : String} (hread : Markup.read source = .ok fs) :
    ∃ s' tops, s.load source = .ok s' ∧ Holds s' s.size fs tops s'.size ∧
      (∀ i < s.size, s'.content? i = s.content? i) ∧
      ∀ i < s.size, s'.forest.children i
        = if document = i then s.forest.children i ++ tops else s.forest.children i := by
  obtain ⟨s', hload⟩ := load_of_read h hread
  have hs := sound_of_reached h
  obtain ⟨hholds, hext, hchildren, -, htops⟩ := holds_insertAll hs fs
  have hfold : (s.insertAll fs).1.foldlM (fun s i => s.append document i) (s.insertAll fs).2
      = .ok s' := by
    rw [load, parseFragment, hread] at hload
    exact hload
  obtain ⟨hsize, hcontent, hlinks⟩ :=
    children_foldlM_append (sound_insertAll hs fs) hholds.nodup htops hfold
  have hdocument := lt_of_content? (content?_document_of_reached h)
  refine ⟨s', (s.insertAll fs).1, hload, ?_, fun i hi => (hcontent i).trans (hext.content i hi),
    fun i hi => ?_⟩
  · rw [hsize]
    exact hholds.congr (fun n _ _ => hcontent n) fun n hn _ =>
      (hlinks n).trans (if_neg (by omega))
  · rw [hlinks i, hchildren i hi]

/-! ## Surfaces made from markup -/

/-- A surface that is made from markup is the fragments of the markup. It is there as soon as the
markup can be read; it writes the canonical text of the fragments, from its own fragments as from a
walk along its links; behind the document it has one node for each fragment, in the order in which
they start, each with the content of its fragment; and its text is what they hold of texts. -/
theorem fragments_of_read {source : String} (hread : Markup.read source = .ok fs) :
    ∃ s : Surface ℓ, ofMarkup source = .ok s ∧
      s.innerMarkup document = .ok (Markup.write fs) ∧ s.writeBelow document = Markup.write fs ∧
      s.size = 1 + (Fragment.preorder fs).length ∧
      (∀ i f, (Fragment.preorder fs)[i]? = some f → s.content? (i + 1) = some f.content) ∧
      s.textContent document
        = .ok (String.join ((Fragment.preorder fs).filterMap Fragment.text?)) := by
  have hblank : Reached (blank : Surface ℓ) := .blank
  obtain ⟨s, tops, hload, hholds, hcontent, hchildren⟩ := holds_load hblank hread
  have hdocument : s.content? document = some .document := hcontent document Nat.one_pos
  have htops : s.forest.children document = tops := hchildren document Nat.one_pos
  have hone : (blank : Surface ℓ).size = 1 := rfl
  rw [hone] at hholds
  have hinner : s.innerMarkup document = .ok (Markup.write fs) := by
    rw [innerMarkup, children_of_content? hdocument, htops]
    exact congrArg (fun fs => Except.ok (Markup.write fs))
      (hholds.fragments (Nat.le_add_left _ _))
  refine ⟨s, hload, hinner, ?_, hholds.end_eq, fun i f hf => ?_, ?_⟩
  · rw [innerMarkup_eq_walk, content_of_content? hdocument] at hinner
    exact Except.ok.inj hinner
  · have hnode := congrArg (·[i]?) hholds.contents
    obtain ⟨hlt, rfl⟩ := List.getElem?_eq_some_iff.mp hf
    simpa [hlt, Nat.add_comm] using hnode
  · have hsize : s.size = (Fragment.preorder fs).length + 1 := hholds.end_eq.trans (Nat.add_comm 1 _)
    have hbelow : s.forest.descendants document = List.range' 1 (Fragment.preorder fs).length := by
      have hlevels : s.forest.size = (Fragment.preorder fs).length + 1 := hsize
      rw [Forest.descendants, hlevels, Forest.descendantsWithin, htops]
      exact hholds.descendants (Nat.le_of_eq hholds.end_eq)
    have hnone : s.ownText document = "" := by rw [ownText, hdocument]
    rw [textContent, content_of_content? hdocument, hbelow, List.map_cons, String.join_cons,
      hholds.texts, hnone]
    exact congrArg Except.ok String.empty_append

/-- A page with a list, whose comment and line break hold nothing, and a text behind it. -/
def noted : String := "<ul class=a><li>x</li><!--n--><br></ul>y&amp;"

/-- The nodes are numbered in the order in which they are written. -/
theorem fragments_of_read_noted : ∃ fs, Markup.read noted = .ok fs ∧ ∃ s : Surface Unit,
    ofMarkup noted = .ok s ∧ s.innerMarkup document
      = .ok "<ul class=\"a\"><li>x</li><!--n--><br></ul>y&amp;" ∧
    s.size = 7 ∧ s.content? 4 = some (.comment "n") ∧ s.textContent document = .ok "xy&" := by
  have hread : Markup.read noted = .ok [.element "ul" [("class", "a")]
      [.element "li" [] [.text "x"], .comment "n", .element "br" [] []], .text "y&"] :=
    eq_ok_of_toOption (by decide +kernel)
  obtain ⟨s, hs, hinner, -, hsize, hnode, htext⟩ := @fragments_of_read Unit _ _ hread
  have hwrite : Markup.write [.element "ul" [("class", "a")]
      [.element "li" [] [.text "x"], .comment "n", .element "br" [] []], .text "y&"]
      = "<ul class=\"a\"><li>x</li><!--n--><br></ul>y&amp;" := by decide +kernel
  exact ⟨_, hread, s, hs, hinner.trans (congrArg _ hwrite), hsize, hnode 3 _ rfl, htext⟩

end Surface

end ReactiveView
