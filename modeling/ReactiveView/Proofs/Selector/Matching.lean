import ReactiveView.Proofs.Selector.Grammar
import ReactiveView.Proofs.Text.Words
/-!
# What selectors match

A compound asks for its tag and for all of its parts. What it is read as asks for the tag, for the
classes and for the last of the ids, so it matches an element with that id, also if the compound
asks for another one before. Reading keeps the meaning of the compounds whose ids agree, and of
these only; the same compounds are those whose parts may be written in any order.

Results:
* `isMatch_selector_iff`: what an element must have to match.
* `exists_isMatch`: every compound is matched by an element with its last id.
* `isMatch_iff_holds`: when a selector that was read means what is written.
-/
namespace ReactiveView.Selector

open Text

/-! ## What is asked for -/

/-- A tag asks for itself, up to the case of basic letters. -/
def Tag.Admits (t : Tag) (tag : String) : Prop := ∀ name ∈ t.name?, lowered name = lowered tag

/-- A part asks for an id, or for a class as one of the words of the attribute. -/
def Part.Holds (attribute? : String → Option String) : Part → Prop
  | .id name => attribute? "id" = some name
  | .cls name => ∃ value, attribute? "class" = some value ∧ IsWord name.toList value.toList

namespace Compound

/-- An element has all that is written. -/
structure Holds (w : Compound) (tag : String) (attribute? : String → Option String) : Prop where
  tag : w.tag.Admits tag
  parts : ∀ p ∈ w.parts, p.Holds attribute?

/-- All ids that are written are one. -/
def Agrees (w : Compound) : Prop := ∀ name ∈ w.ids, ∀ other ∈ w.ids, name = other

/-- The same tag, and the same parts in another order. -/
structure Reorders (w' w : Compound) : Prop where
  tag : w'.tag = w.tag
  parts : w'.parts.Perm w.parts

end Compound

variable {w : Compound} {tag : String} {attribute? : String → Option String}

/-! ## What is matched -/

theorem contains_words_iff (name : String) :
    (words ((attribute? "class").getD "").toList).contains name.toList ↔
      (Part.cls name).Holds attribute? := by
  rw [List.contains_iff_mem, mem_words_iff, Part.Holds]
  cases attribute? "class" with
  | none =>
    have hempty : ¬IsWord name.toList "".toList := by
      rintro ⟨hne, -, us, vs, heq, -⟩
      simp_all
    simpa using hempty
  | some value => simp

/-- What an element must have to match. -/
theorem isMatch_selector_iff : w.selector.isMatch tag attribute? ↔
    w.tag.Admits tag ∧ (∀ name ∈ w.ids.getLast?, attribute? "id" = some name) ∧
      ∀ name ∈ w.classes, (Part.cls name).Holds attribute? := by
  simp only [isMatch, Compound.selector, Bool.and_eq_true, List.all_eq_true, contains_words_iff,
    Option.all_eq_true, beq_iff_eq, and_assoc]
  refine and_congr ?_ Iff.rfl
  simp [Tag.Admits, sameIgnoringCase, lowered_lowered]

/-- An element has all that is written if it has the tag, all ids and all classes. -/
theorem holds_iff : w.Holds tag attribute? ↔
    w.tag.Admits tag ∧ (∀ name ∈ w.ids, attribute? "id" = some name) ∧
      ∀ name ∈ w.classes, (Part.cls name).Holds attribute? := by
  constructor
  · rintro ⟨htag, hparts⟩
    exact ⟨htag, fun name h => hparts _ (mem_ids.mp h), fun name h => hparts _ (mem_classes.mp h)⟩
  · rintro ⟨htag, hids, hclasses⟩
    refine ⟨htag, fun p hp => ?_⟩
    cases p with
    | id name => exact hids name (mem_ids.mpr hp)
    | cls name => exact hclasses name (mem_classes.mpr hp)

theorem Compound.Agrees.mem_iff (h : w.Agrees) {name : String} :
    name ∈ w.ids.getLast? ↔ name ∈ w.ids := by
  constructor
  · exact List.mem_of_getLast?
  · intro hname
    obtain ⟨last, hlast⟩ := Option.ne_none_iff_exists'.mp fun hnone =>
      List.ne_nil_of_mem hname (List.getLast?_eq_none_iff.mp hnone)
    rw [h name hname last (List.mem_of_getLast? hlast)]
    exact hlast

/-- The words of an attribute that lists the names of a row. -/
theorem isWord_flatMap {names : List String} (hnames : ∀ n ∈ names, IsName n.toList)
    {name : String} (h : name ∈ names) :
    IsWord name.toList (names.flatMap fun n => n.toList ++ [' ']) := by
  obtain ⟨us, vs, rfl⟩ := List.append_of_mem h
  have hname := hnames name h
  refine ⟨hname.ne_nil, fun c hc => isBlank_eq_false_of_isNameChar (hname.chars c hc),
    us.flatMap fun n => n.toList ++ [' '], ' ' :: vs.flatMap fun n => n.toList ++ [' '], by simp,
    fun c hc => ?_, fun c hc => ?_⟩
  · rcases List.eq_nil_or_concat us with rfl | ⟨us, n, rfl⟩
    · cases hc
    · obtain rfl : ' ' = c := by simpa using hc
      rfl
  · obtain rfl : ' ' = c := by simpa using hc
    rfl

/-- Every compound is matched by an element with its last id. -/
theorem exists_isMatch (hw : w.WellNamed) : ∃ tag attribute?,
    w.selector.isMatch tag attribute? ∧ attribute? "id" = w.ids.getLast? := by
  let attribute? : String → Option String := fun name =>
    if name = "id" then w.ids.getLast?
    else some (String.ofList (w.classes.flatMap fun n => n.toList ++ [' ']))
  have hid : attribute? "id" = w.ids.getLast? := if_pos rfl
  refine ⟨w.tag.name?.getD "", attribute?, isMatch_selector_iff.mpr ⟨?_, ?_, ?_⟩, hid⟩
  · intro name hname
    rw [Option.mem_def.mp hname, Option.getD_some]
  · exact fun name hname => hid.trans hname
  · refine fun name hname => ⟨_, if_neg (by decide), ?_⟩
    rw [String.toList_ofList]
    exact isWord_flatMap (fun n hn => hw.parts _ (mem_classes.mp hn)) hname

/-! ## What is read of what is written -/

/-- What is read means what is written, if the ids agree and not otherwise. -/
theorem isMatch_eq_holds_iff (hw : w.WellNamed) :
    (∀ tag attribute?, w.selector.isMatch tag attribute? ↔ w.Holds tag attribute?) ↔ w.Agrees := by
  constructor
  · intro h name hname other hother
    obtain ⟨tag, attribute?, hmatch, hid⟩ := exists_isMatch hw
    obtain ⟨-, hids, -⟩ := holds_iff.mp ((h tag attribute?).mp hmatch)
    exact Option.some.inj ((hids name hname).symm.trans (hids other hother))
  · intro h tag attribute?
    rw [isMatch_selector_iff, holds_iff]
    simp only [h.mem_iff]

/-- A compound without blanks around it spells its text. -/
theorem spells_ofList (hw : w.WellNamed) (hne : w.text ≠ []) :
    w.Spells (trim (String.ofList w.text).toList) := by
  rw [String.toList_ofList, trim_of_not_blank hw.isBlank_eq_false]
  exact ⟨hw, rfl, hne⟩

theorem Compound.Reorders.holds_iff {w' : Compound} (h : w'.Reorders w) :
    w'.Holds tag attribute? ↔ w.Holds tag attribute? := by
  constructor
  · rintro ⟨htag, hparts⟩
    exact ⟨h.tag ▸ htag, fun p hp => hparts p (h.parts.mem_iff.mpr hp)⟩
  · rintro ⟨htag, hparts⟩
    exact ⟨h.tag ▸ htag, fun p hp => hparts p (h.parts.mem_iff.mp hp)⟩

theorem Compound.Reorders.agrees {w' : Compound} (h : w'.Reorders w) (hw : w.Agrees) :
    w'.Agrees := by
  have hids : ∀ name, name ∈ w'.ids ↔ name ∈ w.ids := fun name => by
    rw [mem_ids, mem_ids, h.parts.mem_iff]
  exact fun name hname other hother =>
    hw name ((hids name).mp hname) other ((hids other).mp hother)

theorem Compound.Reorders.wellNamed {w' : Compound} (h : w'.Reorders w) (hw : w.WellNamed) :
    w'.WellNamed :=
  ⟨h.tag ▸ hw.tag, fun p hp => hw.parts p (h.parts.mem_iff.mp hp)⟩

/-- Any id of a compound may be written last. -/
theorem exists_reorders {name : String} (h : name ∈ w.ids) :
    ∃ w' : Compound, w'.Reorders w ∧ w'.ids.getLast? = some name := by
  obtain ⟨us, vs, hparts⟩ := List.append_of_mem (mem_ids.mp h)
  refine ⟨⟨w.tag, us ++ vs ++ [.id name]⟩, ⟨rfl, ?_⟩, ?_⟩
  · rw [hparts]
    exact (List.perm_append_singleton _ _).trans List.perm_middle.symm
  · have hlast : [Part.id name].filterMap Part.id? = [name] := rfl
    rw [Compound.ids, List.filterMap_append, hlast, List.getLast?_concat]

/-- The parts of a compound may be written in any order, if the ids agree and not otherwise. -/
theorem reordered_iff (hw : w.WellNamed) :
    (∀ (source' : String) (s' : Selector) (w' : Compound), read source' = .ok s' →
      w'.Spells (trim source'.toList) → w'.Reorders w →
      ∀ tag attribute?, s'.isMatch tag attribute? ↔ w.selector.isMatch tag attribute?) ↔
      w.Agrees := by
  constructor
  · intro h
    -- an element with an id that is written last instead has the last id, too
    have hlast : ∀ name ∈ w.ids, w.ids.getLast? = some name := by
      intro name hname
      obtain ⟨w', hreorders, hlast'⟩ := exists_reorders hname
      have hw' := hreorders.wellNamed hw
      have hne : w'.text ≠ [] := by
        intro hnil
        have hparts := (List.append_eq_nil_iff.mp hnil).2
        have hpart := hreorders.parts.mem_iff.mpr (mem_ids.mp hname)
        have htext := List.flatMap_eq_nil_iff.mp hparts _ hpart
        cases htext
      have hspells := spells_ofList hw' hne
      have hread := (read_spells _ _).mpr ⟨w', hspells, rfl⟩
      obtain ⟨tag, attribute?, hmatch, hid⟩ := exists_isMatch hw'
      have hsame := (h _ _ w' hread hspells hreorders tag attribute?).mp hmatch
      obtain ⟨-, hids, -⟩ := isMatch_selector_iff.mp hsame
      cases hw0 : w.ids.getLast? with
      | none => exact absurd (List.getLast?_eq_none_iff.mp hw0) (List.ne_nil_of_mem hname)
      | some last => rw [← hids last hw0, hid, hlast']
    exact fun name hname other hother =>
      Option.some.inj ((hlast name hname).symm.trans (hlast other hother))
  · intro hagrees source' s' w' hread hspells hreorders tag attribute?
    obtain ⟨v, hv, rfl⟩ := (read_spells _ _).mp hread
    obtain rfl := hv.unique hspells
    rw [(isMatch_eq_holds_iff (hreorders.wellNamed hw)).mpr (hreorders.agrees hagrees) tag attribute?,
      (isMatch_eq_holds_iff hw).mpr hagrees tag attribute?, hreorders.holds_iff]

/-- What a selector that is read from a text matches. The text is written in one way; an element
matches if it has the tag, the id that is written last and all of the classes. That is all that is
written, for every element, exactly if no two ids that are written differ; and exactly then every
text with the same tag and the same parts in another order matches the same elements. -/
theorem isMatch_iff_holds {source : String} {s : Selector} (h : read source = .ok s) :
    ∃ w : Compound, w.Spells (trim source.toList) ∧
      (∀ w', Compound.Spells w' (trim source.toList) → w' = w) ∧
      (∀ tag attribute?, s.isMatch tag attribute? ↔ w.tag.Admits tag ∧
        (∀ name ∈ w.ids.getLast?, attribute? "id" = some name) ∧
        ∀ name ∈ w.classes, (Part.cls name).Holds attribute?) ∧
      ((∀ tag attribute?, s.isMatch tag attribute? ↔ w.Holds tag attribute?) ↔ w.Agrees) ∧
      ((∀ (source' : String) (s' : Selector) (w' : Compound), read source' = .ok s' →
        w'.Spells (trim source'.toList) → w'.Reorders w →
        ∀ tag attribute?, s'.isMatch tag attribute? ↔ s.isMatch tag attribute?) ↔ w.Agrees) := by
  obtain ⟨w, hw, rfl⟩ := (read_spells source s).mp h
  exact ⟨w, hw, fun w' hw' => hw'.unique hw, fun _ _ => isMatch_selector_iff,
    isMatch_eq_holds_iff hw.wellNamed, reordered_iff hw.wellNamed⟩

/-- With two ids that differ, what matches is not what is written. -/
theorem isMatch_iff_holds_ids :
    read " P#a.x#b " = .ok ⟨some "p", some "b", ["x"]⟩ ∧
      ∃ w : Compound, w.parts = [.id "a", .cls "x", .id "b"] ∧ w.Spells (trim " P#a.x#b ".toList) ∧
        ¬∀ tag attribute?, Selector.isMatch ⟨some "p", some "b", ["x"]⟩ tag attribute? ↔
          w.Holds tag attribute? := by
  have hread : read " P#a.x#b " = .ok ⟨some "p", some "b", ["x"]⟩ :=
    eq_ok_of_toOption (by decide +kernel)
  have hname : ∀ c : Char, isNameChar c → IsName [c] := fun c hc =>
    ⟨List.cons_ne_nil c [], List.forall_mem_singleton.mpr hc⟩
  have hspells : Compound.Spells ⟨.named "P", [.id "a", .cls "x", .id "b"]⟩
      (trim " P#a.x#b ".toList) := by
    refine ⟨⟨fun name h => ?_, ?_⟩, by decide, by decide⟩
    · obtain rfl : "P" = name := Option.some.inj h
      exact hname 'P' (by decide)
    · simp only [List.forall_mem_cons]
      exact ⟨hname 'a' (by decide), hname 'x' (by decide), hname 'b' (by decide), by simp⟩
  obtain ⟨w, hw, hunique, -, hmeans, -⟩ := isMatch_iff_holds hread
  obtain rfl := hunique _ hspells
  refine ⟨hread, _, rfl, hw, fun h => ?_⟩
  exact absurd (hmeans.mp h "a" (by decide) "b" (by decide)) (by decide)

end ReactiveView.Selector
