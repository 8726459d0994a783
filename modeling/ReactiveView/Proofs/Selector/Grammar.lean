import ReactiveView.Proofs.Text.Trim
import ReactiveView.Selector
/-!
# The grammar of selectors

A `Compound` is a selector as it is written: its tag, if there is one, and the parts behind it, mark
by mark. What a selector is read as keeps less: tags in lower case, of the ids the last one only,
and no order between an id and a class. Printing it writes one compound that is read as the same.

Every text is a compound that is taken as far as it goes and a rest. The text is read if the rest is
empty, and refused where the rest starts otherwise (`Halts`); what was taken before does not matter
to the refusal.

Results:
* `readParts_append`: parts are read in front of any rest that does not lengthen the last name.
* `exists_parts`, `exists_tag`: how far a text goes as a selector.
* `readTrimmed_cases`: a text is read, or refused at its rest.
* `Compound.Spells.unique`: how a text is written is told by the text.
* `read_eq_ok_iff`: which texts are selectors, and what is printed is read back.
-/
namespace ReactiveView.Selector

open Text

/-! ## Selectors as they are written -/

/-- A name: name characters, at least one. -/
structure IsName (cs : List Char) : Prop where
  ne_nil : cs ≠ []
  chars : ∀ c ∈ cs, isNameChar c

/-- What is written for the tag: nothing, a star or a name. -/
inductive Tag where
  | absent
  | star
  | named (name : String)

namespace Tag

/-- The name of a tag, if one is written. -/
def name? : Tag → Option String
  | .named name => some name
  | _ => none

def text : Tag → List Char
  | .absent => []
  | .star => ['*']
  | .named name => name.toList

end Tag

/-- What may be written behind the tag: `#name` or `.name`. -/
inductive Part where
  | id (name : String)
  | cls (name : String)

namespace Part

def name : Part → String
  | .id name => name
  | .cls name => name

def text : Part → List Char
  | .id name => '#' :: name.toList
  | .cls name => '.' :: name.toList

/-- The name of a part that asks for an id. -/
def id? : Part → Option String
  | .id name => some name
  | .cls _ => none

/-- The name of a part that asks for a class. -/
def cls? : Part → Option String
  | .id _ => none
  | .cls name => some name

end Part

/-- A selector as it is written. -/
structure Compound where
  tag : Tag
  parts : List Part

namespace Compound

/-- The text of a compound. -/
def text (w : Compound) : List Char := w.tag.text ++ w.parts.flatMap Part.text

/-- The ids that are written, in order. -/
def ids (w : Compound) : List String := w.parts.filterMap Part.id?

/-- The classes that are written, in order. -/
def classes (w : Compound) : List String := w.parts.filterMap Part.cls?

/-- What is kept of a compound. -/
def selector (w : Compound) : Selector := ⟨w.tag.name?.map lowered, w.ids.getLast?, w.classes⟩

/-- Every name of a compound is one. -/
structure WellNamed (w : Compound) : Prop where
  tag : ∀ name ∈ w.tag.name?, IsName name.toList
  parts : ∀ p ∈ w.parts, IsName p.name.toList

/-- A compound is what a text consists of. -/
structure Spells (w : Compound) (cs : List Char) : Prop where
  wellNamed : w.WellNamed
  text : cs = w.text
  ne_nil : cs ≠ []

end Compound

/-- A selector with a part more. -/
def add (s : Selector) : Part → Selector
  | .id name => { s with id := some name }
  | .cls name => { s with classes := s.classes ++ [name] }

theorem foldl_add (parts : List Part) (s : Selector) :
    parts.foldl add s = { s with
      id := (parts.filterMap Part.id?).getLast?.or s.id
      classes := s.classes ++ parts.filterMap Part.cls? } := by
  induction parts generalizing s with
  | nil => simp
  | cons p parts ih =>
    rw [List.foldl_cons, ih]
    cases p with
    | id name =>
      have hid : (Part.id name :: parts).filterMap Part.id? = name :: parts.filterMap Part.id? := rfl
      have hcls : (Part.id name :: parts).filterMap Part.cls? = parts.filterMap Part.cls? := rfl
      rw [hid, hcls, List.getLast?_cons]
      cases (parts.filterMap Part.id?).getLast? <;> rfl
    | cls name =>
      have hid : (Part.cls name :: parts).filterMap Part.id? = parts.filterMap Part.id? := rfl
      have hcls : (Part.cls name :: parts).filterMap Part.cls? = name :: parts.filterMap Part.cls? :=
        rfl
      simp only [add, hid, hcls, List.append_assoc, List.singleton_append]

/-! ## Parts in front of a rest -/

theorem isNameChar_eq_false_of_isBlank {c : Char} (h : isBlank c) : isNameChar c = false := by
  have hdash : c ≠ '-' := ne_of_isBlank h rfl
  have hline : c ≠ '_' := ne_of_isBlank h rfl
  simp [isNameChar, isAlphanumeric_eq_false_of_isBlank h, hdash, hline]

theorem isBlank_eq_false_of_isNameChar {c : Char} (h : isNameChar c) : isBlank c = false := by
  rw [Bool.eq_false_iff]
  intro hb
  rw [isNameChar_eq_false_of_isBlank hb] at h
  cases h

/-- A part is a mark and its name. -/
theorem Part.exists_mark (p : Part) :
    ∃ mark, (mark = '#' ∨ mark = '.') ∧ p.text = mark :: p.name.toList := by
  cases p with
  | id name => exact ⟨'#', .inl rfl, rfl⟩
  | cls name => exact ⟨'.', .inr rfl, rfl⟩

/-- Parts start with a mark, if there are any. -/
theorem stops_parts {p : Char → Bool} (hid : p '#' = false) (hcls : p '.' = false)
    {parts : List Part} {rest : List Char} (hrest : parts = [] → Stops p rest) :
    Stops p (parts.flatMap Part.text ++ rest) := by
  cases parts with
  | nil => exact hrest rfl
  | cons q parts =>
    obtain ⟨mark, hm, htext⟩ := q.exists_mark
    have hmark : p mark = false := by rcases hm with rfl | rfl <;> assumption
    rw [List.flatMap_cons, htext]
    exact stops_cons hmark _

theorem stops_parts_self {p : Char → Bool} (hid : p '#' = false) (hcls : p '.' = false)
    (parts : List Part) : Stops p (parts.flatMap Part.text) := by
  rw [← List.append_nil (parts.flatMap Part.text)]
  exact stops_parts hid hcls fun _ => stops_nil p

/-- A part is read in front of any rest that does not lengthen its name. -/
theorem readParts_part {p : Part} (hp : IsName p.name.toList) {rest : List Char}
    (hrest : Stops isNameChar rest) (s : Selector) :
    readParts s (p.text ++ rest) = readParts (s.add p) rest := by
  have htake := takeWhile_append_stop hp.chars hrest
  have hdrop := dropWhile_append_stop hp.chars hrest
  have hne : p.name.isEmpty = false := by
    have := hp.ne_nil
    simpa using this
  cases p with
  | id name =>
    simp only [Part.name] at htake hdrop hne
    simp [Part.text, readParts, htake, hdrop, hne, add]
  | cls name =>
    simp only [Part.name] at htake hdrop hne
    simp [Part.text, readParts, htake, hdrop, hne, add]

/-- Parts are read in front of any rest that does not lengthen the last name. -/
theorem readParts_append {parts : List Part} (hparts : ∀ p ∈ parts, IsName p.name.toList)
    {rest : List Char} (hrest : parts ≠ [] → Stops isNameChar rest) (s : Selector) :
    readParts s (parts.flatMap Part.text ++ rest) = readParts (parts.foldl add s) rest := by
  induction parts generalizing s with
  | nil => rfl
  | cons p parts ih =>
    obtain ⟨hp, hparts⟩ := List.forall_mem_cons.mp hparts
    have hstop : Stops isNameChar rest := hrest (List.cons_ne_nil p parts)
    rw [List.flatMap_cons, List.append_assoc, List.foldl_cons,
      readParts_part hp (stops_parts rfl rfl fun _ => hstop)]
    exact ih hparts (fun _ => hstop) (s.add p)

/-! ## Where a text stops being a selector -/

/-- The message about a character that cannot follow. -/
def unexpected (c : Char) : String := "Unexpected character '" ++ c.toString ++ "'"

/-- A text that is no further part, and how it is refused: a mark without a name, or a character
that is no mark. -/
inductive Halts : List Char → Failure → Prop
  | name {mark : Char} {rest : List Char} (hm : mark = '#' ∨ mark = '.')
      (hs : Stops isNameChar rest) : Halts (mark :: rest) ⟨"Expected name", rest⟩
  | character {c : Char} {rest : List Char} (hc : ¬(c = '#' ∨ c = '.')) :
    Halts (c :: rest) ⟨unexpected c, c :: rest⟩

theorem readParts_of_halts {cs : List Char} {f : Failure} (h : Halts cs f) (s : Selector) :
    readParts s cs = .error f := by
  cases h with
  | name hm hs => simp [readParts, hm, hs.takeWhile_eq_nil]
  | character hc =>
    rw [readParts, if_neg hc]
    rfl

/-- A mark and a name are a part. -/
theorem exists_part {mark : Char} (hm : mark = '#' ∨ mark = '.') {cs : List Char}
    (hcs : IsName cs) : ∃ p : Part, IsName p.name.toList ∧ p.text = mark :: cs := by
  rcases hm with rfl | rfl
  · exact ⟨.id (String.ofList cs), by simpa [Part.name] using hcs, by simp [Part.text]⟩
  · exact ⟨.cls (String.ofList cs), by simpa [Part.name] using hcs, by simp [Part.text]⟩

/-- How far a text goes as parts. -/
theorem exists_parts (cs : List Char) : ∃ parts rest, (∀ p ∈ parts, IsName p.name.toList) ∧
    cs = parts.flatMap Part.text ++ rest ∧ (parts ≠ [] → Stops isNameChar rest) ∧
    (rest = [] ∨ ∃ f, Halts rest f) := by
  induction hn : cs.length using Nat.strongRecOn generalizing cs with
  | ind n ih =>
    cases cs with
    | nil => exact ⟨[], [], by simp, rfl, by simp, .inl rfl⟩
    | cons c more =>
      by_cases hc : c = '#' ∨ c = '.'
      · have hsplit := List.takeWhile_append_dropWhile (p := isNameChar) (l := more)
        have hstop : Stops isNameChar (more.dropWhile isNameChar) := stops_dropWhile isNameChar more
        cases hname : more.takeWhile isNameChar with
        | nil =>
          rw [hname, List.nil_append] at hsplit
          exact ⟨[], c :: more, by simp, rfl, by simp, .inr ⟨_, .name hc (hsplit ▸ hstop)⟩⟩
        | cons d name =>
          have hd : IsName (d :: name) :=
            ⟨List.cons_ne_nil d name, hname ▸ List.all_eq_true.mp List.all_takeWhile⟩
          obtain ⟨p, hp, htext⟩ := exists_part hc hd
          have hlt : (more.dropWhile isNameChar).length < n := by
            rw [← hn, List.length_cons]
            exact Nat.lt_succ_of_le (length_dropWhile_le isNameChar more)
          obtain ⟨parts, rest, hparts, heq, hrest, hend⟩ := ih _ hlt _ rfl
          refine ⟨p :: parts, rest, List.forall_mem_cons.mpr ⟨hp, hparts⟩, ?_, fun _ => ?_, hend⟩
          · rw [List.flatMap_cons, List.append_assoc, ← heq, htext, ← hname, List.cons_append, hsplit]
          · cases parts with
            | nil =>
              rw [List.flatMap_nil, List.nil_append] at heq
              exact heq ▸ hstop
            | cons q parts => exact hrest (List.cons_ne_nil q parts)
      · exact ⟨[], c :: more, by simp, rfl, by simp, .inr ⟨_, .character hc⟩⟩

/-! ## The tag in front -/

/-- What may follow a tag that has been taken as far as it goes. -/
def Tag.Ends : Tag → List Char → Prop
  | .absent, cs => cs ≠ [] ∧ Stops (fun c => isNameChar c || c == '*') cs
  | .star, _ => True
  | .named _, cs => Stops isNameChar cs

/-- A tag is read in front of what may follow it. -/
theorem readTrimmed_tag {tag : Tag} (htag : ∀ name ∈ tag.name?, IsName name.toList)
    {cs : List Char} (hcs : tag.Ends cs) :
    readTrimmed (tag.text ++ cs) = readParts ⟨tag.name?.map lowered, none, []⟩ cs := by
  cases tag with
  | absent =>
    obtain ⟨c, more, rfl⟩ := List.exists_cons_of_ne_nil hcs.1
    obtain ⟨hname, hstar⟩ := Bool.or_eq_false_iff.mp (hcs.2 c more rfl)
    simp only [beq_eq_false_iff_ne] at hstar
    simp [Tag.text, Tag.name?, readTrimmed, hname, hstar]
  | star => simp [Tag.text, Tag.name?, readTrimmed]
  | named name =>
    have hname : IsName name.toList := htag name rfl
    obtain ⟨c, more, hc⟩ := List.exists_cons_of_ne_nil hname.ne_nil
    obtain ⟨hfirst, hmore⟩ := List.forall_mem_cons.mp (hc ▸ hname.chars)
    have hstar : c ≠ '*' := by
      rintro rfl
      exact absurd hfirst (by decide)
    have hlist : String.ofList (c :: more) = name := by rw [← hc, String.ofList_toList]
    simp only [Tag.text, Tag.name?, hc, List.cons_append, readTrimmed, hstar, hfirst, if_true,
      if_false, takeWhile_append_stop hmore hcs, dropWhile_append_stop hmore hcs, hlist,
      Option.map_some]

/-- How far a text goes as a tag. -/
theorem exists_tag {cs : List Char} (hne : cs ≠ []) : ∃ (tag : Tag) (rest : List Char),
    (∀ name ∈ tag.name?, IsName name.toList) ∧ cs = tag.text ++ rest ∧ tag.Ends rest := by
  obtain ⟨c, more, rfl⟩ := List.exists_cons_of_ne_nil hne
  by_cases hstar : c = '*'
  · subst hstar
    exact ⟨.star, more, by simp [Tag.name?], rfl, trivial⟩
  · by_cases hname : isNameChar c
    · have htake : IsName (c :: more.takeWhile isNameChar) :=
        ⟨List.cons_ne_nil c _, List.forall_mem_cons.mpr
          ⟨hname, List.all_eq_true.mp List.all_takeWhile⟩⟩
      refine ⟨.named (String.ofList (c :: more.takeWhile isNameChar)), more.dropWhile isNameChar,
        by simpa [Tag.name?] using htake, ?_, stops_dropWhile isNameChar more⟩
      simp [Tag.text]
    · refine ⟨.absent, c :: more, by simp [Tag.name?], rfl, hne, stops_cons ?_ more⟩
      simp [hname, hstar]

/-! ## Whole texts -/

/-- At the end of a text the parts that were taken have been added. -/
theorem readParts_nil (tag : Tag) (parts : List Part) :
    readParts (parts.foldl add ⟨tag.name?.map lowered, none, []⟩) [] =
      .ok (Compound.mk tag parts).selector := by
  rw [foldl_add, readParts, Option.or_none, List.nil_append]
  rfl

/-- A text is a compound and a rest. It is read as what is kept of the compound if the rest is
empty, and refused at the rest otherwise. Only behind a lone star may the rest go on with a name. -/
theorem readTrimmed_cases {cs : List Char} (hne : cs ≠ []) :
    ∃ (w : Compound) (rest : List Char), w.WellNamed ∧ cs = w.text ++ rest ∧
      (Stops isNameChar rest ∨ w = ⟨.star, []⟩) ∧
      (rest = [] ∧ readTrimmed cs = .ok w.selector ∨
        ∃ f, Halts rest f ∧ readTrimmed cs = .error f) := by
  obtain ⟨tag, more, htag, rfl, hends⟩ := exists_tag hne
  obtain ⟨parts, rest, hparts, rfl, hstop, hrest⟩ := exists_parts more
  refine ⟨⟨tag, parts⟩, rest, ⟨htag, hparts⟩, (List.append_assoc _ _ _).symm, ?_, ?_⟩
  · cases parts with
    | cons p parts => exact .inl (hstop (List.cons_ne_nil p parts))
    | nil =>
      cases tag with
      | absent =>
        exact .inl fun c cs heq => (Bool.or_eq_false_iff.mp (hends.2 c cs heq)).1
      | star => exact .inr rfl
      | named name => exact .inl hends
  · rw [readTrimmed_tag htag hends, readParts_append hparts hstop]
    rcases hrest with rfl | ⟨f, hf⟩
    · exact .inl ⟨rfl, readParts_nil _ parts⟩
    · exact .inr ⟨f, hf, readParts_of_halts hf _⟩

/-- A text that a compound spells is read as what is kept of it. -/
theorem readTrimmed_of_spells {w : Compound} {cs : List Char} (h : w.Spells cs) :
    readTrimmed cs = .ok w.selector := by
  obtain ⟨⟨htag, hparts⟩, rfl, hne⟩ := h
  have hends : w.tag.Ends (w.parts.flatMap Part.text) := by
    cases htext : w.tag with
    | absent =>
      rw [Compound.text, htext] at hne
      exact ⟨hne, stops_parts_self rfl rfl _⟩
    | star => trivial
    | named name => exact stops_parts_self rfl rfl _
  have hread := readParts_append hparts (fun _ => stops_nil isNameChar)
    ⟨w.tag.name?.map lowered, none, []⟩
  rw [List.append_nil, readParts_nil] at hread
  rw [Compound.text, readTrimmed_tag htag hends, hread]

/-- The selectors that are read are what is kept of the compounds that a text spells. -/
theorem read_spells (source : String) (s : Selector) : read source = .ok s ↔
    ∃ w : Compound, w.Spells (trim source.toList) ∧ s = w.selector := by
  have hread : read source = .ok s ↔ readTrimmed (trim source.toList) = .ok s := by
    simp only [read]
    cases readTrimmed (trim source.toList) with
    | ok t => simp
    | error f => simp
  rw [hread]
  constructor
  · intro h
    have hne : trim source.toList ≠ [] := by
      intro hnil
      rw [hnil, readTrimmed] at h
      cases h
    obtain ⟨w, rest, hw, htext, -, ⟨rfl, hok⟩ | ⟨f, -, herror⟩⟩ := readTrimmed_cases hne
    · refine ⟨w, ⟨hw, htext.trans (List.append_nil _), hne⟩, ?_⟩
      exact Except.ok.inj (h.symm.trans hok)
    · rw [herror] at h
      cases h
  · rintro ⟨w, hw, rfl⟩
    exact readTrimmed_of_spells hw

/-! ## One compound for each text -/

theorem Part.text_inj {p q : Part} (h : p.text = q.text) : p = q := by
  cases p with
  | id name =>
    cases q with
    | id other => exact congrArg Part.id (String.toList_inj.mp (List.cons.inj h).2)
    | cls other => exact absurd (List.cons.inj h).1 (by decide)
  | cls name =>
    cases q with
    | id other => exact absurd (List.cons.inj h).1 (by decide)
    | cls other => exact congrArg Part.cls (String.toList_inj.mp (List.cons.inj h).2)

/-- A part in front of a rest that does not lengthen its name is told by the text. -/
theorem Part.text_append_inj {p q : Part} (hp : IsName p.name.toList) (hq : IsName q.name.toList)
    {us vs : List Char} (hus : Stops isNameChar us) (hvs : Stops isNameChar vs)
    (h : p.text ++ us = q.text ++ vs) : p = q ∧ us = vs := by
  obtain ⟨mark, -, hpt⟩ := p.exists_mark
  obtain ⟨mark', -, hqt⟩ := q.exists_mark
  rw [hpt, hqt] at h
  obtain ⟨rfl, htail⟩ := List.cons.inj h
  obtain ⟨hname, hrest⟩ := append_inj_of_stops hp.chars hus hq.chars hvs htail
  exact ⟨Part.text_inj (by rw [hpt, hqt, hname]), hrest⟩

theorem parts_inj {parts parts' : List Part} (hparts : ∀ p ∈ parts, IsName p.name.toList)
    (hparts' : ∀ p ∈ parts', IsName p.name.toList)
    (h : parts.flatMap Part.text = parts'.flatMap Part.text) : parts = parts' := by
  have hne : ∀ (p : Part) (us : List Char), p.text ++ us ≠ [] := fun p us => by
    obtain ⟨mark, -, htext⟩ := p.exists_mark
    rw [htext]
    exact List.cons_ne_nil mark _
  have hstop : ∀ ps : List Part, Stops isNameChar (ps.flatMap Part.text) :=
    stops_parts_self rfl rfl
  induction parts generalizing parts' with
  | nil =>
    cases parts' with
    | nil => rfl
    | cons q parts' => exact absurd h.symm (hne q _)
  | cons p parts ih =>
    cases parts' with
    | nil => exact absurd h (hne p _)
    | cons q parts' =>
      obtain ⟨hp, hmore⟩ := List.forall_mem_cons.mp hparts
      obtain ⟨hq, hmore'⟩ := List.forall_mem_cons.mp hparts'
      rw [List.flatMap_cons, List.flatMap_cons] at h
      obtain ⟨rfl, hrest⟩ := Part.text_append_inj hp hq (hstop parts) (hstop parts') h
      rw [ih hmore hmore' hrest]

/-- A star is no name. -/
theorem ne_star_of_isName {cs : List Char} (h : IsName cs) : cs ≠ ['*'] := by
  rintro rfl
  exact absurd (h.chars '*' (List.mem_singleton_self _)) (by decide)

/-- A tag goes on as long as there are stars or characters of names. -/
theorem all_text_of_tag {tag : Tag} (htag : ∀ name ∈ tag.name?, IsName name.toList) :
    ∀ c ∈ tag.text, (isNameChar c || c == '*') = true := by
  intro c hc
  cases tag with
  | absent => cases hc
  | star => simp [List.mem_singleton.mp hc]
  | named name => rw [(htag name rfl).chars c hc, Bool.true_or]

theorem tag_inj {tag tag' : Tag} (htag : ∀ name ∈ tag.name?, IsName name.toList)
    (htag' : ∀ name ∈ tag'.name?, IsName name.toList) (h : tag.text = tag'.text) : tag = tag' := by
  cases tag with
  | absent =>
    cases tag' with
    | absent => rfl
    | star => cases h
    | named name => exact absurd h.symm (htag' name rfl).ne_nil
  | star =>
    cases tag' with
    | absent => cases h
    | star => rfl
    | named name => exact absurd h.symm (ne_star_of_isName (htag' name rfl))
  | named name =>
    cases tag' with
    | absent => exact absurd h (htag name rfl).ne_nil
    | star => exact absurd h (ne_star_of_isName (htag name rfl))
    | named other => exact congrArg Tag.named (String.toList_inj.mp h)

/-- A text is spelled by one compound at most. -/
theorem Compound.Spells.unique {w w' : Compound} {cs : List Char} (h : w.Spells cs)
    (h' : w'.Spells cs) : w = w' := by
  have hparts : ∀ v : Compound,
      Stops (fun c => isNameChar c || c == '*') (v.parts.flatMap Part.text) :=
    fun v => stops_parts_self rfl rfl v.parts
  obtain ⟨htags, hrest⟩ := append_inj_of_stops (all_text_of_tag h.wellNamed.tag) (hparts w)
    (all_text_of_tag h'.wellNamed.tag) (hparts w') (h.text.symm.trans h'.text)
  obtain ⟨tag, parts⟩ := w
  obtain ⟨tag', parts'⟩ := w'
  obtain rfl : tag = tag' := tag_inj h.wellNamed.tag h'.wellNamed.tag htags
  obtain rfl : parts = parts' := parts_inj h.wellNamed.parts h'.wellNamed.parts hrest
  rfl

/-! ## What is printed -/

theorem mem_ids {w : Compound} {name : String} : name ∈ w.ids ↔ Part.id name ∈ w.parts := by
  unfold Compound.ids
  rw [List.mem_filterMap]
  constructor
  · rintro ⟨p, hp, hname⟩
    cases p with
    | id _ =>
      cases hname
      exact hp
    | cls _ => cases hname
  · exact fun h => ⟨_, h, rfl⟩

theorem mem_classes {w : Compound} {name : String} :
    name ∈ w.classes ↔ Part.cls name ∈ w.parts := by
  unfold Compound.classes
  rw [List.mem_filterMap]
  constructor
  · rintro ⟨p, hp, hname⟩
    cases p with
    | id _ => cases hname
    | cls _ =>
      cases hname
      exact hp
  · exact fun h => ⟨_, h, rfl⟩

/-- The compound that is printed for a selector. -/
def compound (s : Selector) : Compound :=
  ⟨s.tag.elim .star .named, s.id.toList.map .id ++ s.classes.map .cls⟩

theorem toList_text (s : Selector) : s.text.toList = s.compound.text := by
  obtain ⟨tag, id, classes⟩ := s
  cases tag <;> cases id <;>
    simp [text, compound, Compound.text, Tag.text, Part.text, String.toList_join, List.flatMap_map]

theorem name?_compound (s : Selector) : s.compound.tag.name? = s.tag := by
  unfold compound
  cases s.tag <;> rfl

theorem ids_compound (s : Selector) : s.compound.ids = s.id.toList := by
  have hcls : (s.classes.map Part.cls).filterMap Part.id? = [] := by
    simp [List.filterMap_eq_nil_iff, Part.id?]
  rw [Compound.ids, compound, List.filterMap_append, hcls, List.append_nil, List.filterMap_map]
  exact List.filterMap_some

theorem classes_compound (s : Selector) : s.compound.classes = s.classes := by
  have hid : (s.id.toList.map Part.id).filterMap Part.cls? = [] := by
    simp [List.filterMap_eq_nil_iff, Part.cls?]
  rw [Compound.classes, compound, List.filterMap_append, hid, List.nil_append, List.filterMap_map]
  exact List.filterMap_some

/-- The printed compound keeps all of a selector whose tag is in lower case. -/
theorem selector_compound {s : Selector} (h : s.tag.map lowered = s.tag) :
    s.compound.selector = s := by
  rw [Compound.selector, name?_compound, h, ids_compound, classes_compound]
  cases s with
  | mk tag id classes => cases id <;> rfl

theorem isName_lowered {name : String} (h : IsName name.toList) : IsName (lowered name).toList := by
  have hlower : ∀ c, isNameChar c → isNameChar (lower c) := by
    intro c hc
    simp only [isNameChar, Bool.or_eq_true, beq_iff_eq] at hc
    rcases hc with (hc | rfl) | rfl
    · simp [isNameChar, isAlphanumeric_lower hc]
    · decide
    · decide
  rw [lowered, String.toList_ofList]
  refine ⟨by simpa using h.ne_nil, fun c hc => ?_⟩
  obtain ⟨d, hd, rfl⟩ := List.mem_map.mp hc
  exact hlower d (h.chars d hd)

/-- What is printed for a compound is made of its names. -/
theorem wellNamed_compound {w : Compound} (h : w.WellNamed) : w.selector.compound.WellNamed := by
  constructor
  · intro name hname
    rw [name?_compound] at hname
    obtain ⟨written, hwritten, rfl⟩ := Option.map_eq_some_iff.mp hname
    exact isName_lowered (h.tag written hwritten)
  · intro p hp
    rcases List.mem_append.mp hp with hid | hcls
    · obtain ⟨name, hname, rfl⟩ := List.mem_map.mp hid
      have hlast : name ∈ w.ids := List.mem_of_getLast? (Option.mem_toList.mp hname)
      exact h.parts _ (mem_ids.mp hlast)
    · obtain ⟨name, hname, rfl⟩ := List.mem_map.mp hcls
      exact h.parts _ (mem_classes.mp hname)

/-- What is printed is never empty: there is always a tag. -/
theorem text_compound_ne_nil {s : Selector} (h : s.compound.WellNamed) : s.compound.text ≠ [] := by
  cases htag : s.tag with
  | none => simp [compound, Compound.text, htag, Tag.text]
  | some name =>
    have hname : IsName name.toList := h.tag name ((name?_compound s).trans htag)
    have htext : s.compound.tag.text = name.toList := by
      rw [compound, htag]
      rfl
    rw [Compound.text, htext]
    exact List.append_ne_nil_of_left_ne_nil hname.ne_nil _

/-- The characters of parts: marks, and those of names. -/
theorem mem_parts_cases {parts : List Part} (hparts : ∀ p ∈ parts, IsName p.name.toList) {c : Char}
    (hc : c ∈ parts.flatMap Part.text) : (c = '#' ∨ c = '.') ∨ isNameChar c := by
  obtain ⟨p, hp, hmem⟩ := List.mem_flatMap.mp hc
  obtain ⟨mark, hm, htext⟩ := p.exists_mark
  rw [htext] at hmem
  rcases List.mem_cons.mp hmem with rfl | hname
  · exact .inl hm
  · exact .inr ((hparts p hp).chars c hname)

/-- No blank is part of a selector. -/
theorem Compound.WellNamed.isBlank_eq_false {w : Compound} (h : w.WellNamed) :
    ∀ c ∈ w.text, isBlank c = false := by
  intro c hc
  rcases List.mem_append.mp hc with htag | hparts
  · rcases Bool.or_eq_true_iff.mp (all_text_of_tag h.tag c htag) with hname | hstar
    · exact isBlank_eq_false_of_isNameChar hname
    · obtain rfl := beq_iff_eq.mp hstar
      rfl
  · rcases mem_parts_cases h.parts hparts with (rfl | rfl) | hname
    · rfl
    · rfl
    · exact isBlank_eq_false_of_isNameChar hname

/-- What is printed for a selector that was read is read as the same selector. -/
theorem read_text {source : String} {s : Selector} (h : read source = .ok s) :
    read s.text = .ok s := by
  obtain ⟨w, hw, rfl⟩ := (read_spells source s).mp h
  have hnamed := wellNamed_compound hw.wellNamed
  have hlow : w.selector.tag.map lowered = w.selector.tag := by
    simp [Compound.selector, Function.comp_def, lowered_lowered]
  have htrim : trim w.selector.text.toList = w.selector.compound.text := by
    rw [toList_text]
    exact trim_of_not_blank hnamed.isBlank_eq_false
  refine (read_spells _ _).mpr ⟨w.selector.compound, ⟨hnamed, htrim, ?_⟩, ?_⟩
  · rw [htrim]
    exact text_compound_ne_nil hnamed
  · exact (selector_compound hlow).symm

/-- A text is read as a selector exactly if, without the blanks around it, it is written as an
optional star or name and then marked names, with at least one of these; what is kept is the tag in
lower case, the last id and the classes in order. What is printed for it is read as the same
selector. -/
theorem read_eq_ok_iff (source : String) (s : Selector) :
    (read source = .ok s ↔
      ∃ w : Compound, w.Spells (trim source.toList) ∧ s = w.selector) ∧
    (read source = .ok s → read s.text = .ok s) :=
  ⟨read_spells source s, read_text⟩

end ReactiveView.Selector
