import ReactiveView.Proofs.Markup.Escape
import ReactiveView.Proofs.Template.Substitution
import ReactiveView.Template.Repeat
/-!
# Accessors in the text of a copy

The text of a repeated element on its way through a page: the accessor of a member takes the place
of the item, the text is escaped as markup, and the interpolation in the markup is read as an
expression again. The accessor survives all of this but for two things. Two equal braces in a row in
a key are a mark, and make the text no interpolation any more. And since the expression is taken
from the markup, what it names is the key as it is escaped.

Results:
* `read_accessor`: the accessor of a member is an expression that leads to the member.
* `escapeText_accessor`: escaping an accessor escapes the key.
* `hasMark_accessor`: an accessor holds a mark exactly when its key does.
* `hasMark_escapeText`: a text holds a mark exactly when it does as it is escaped.
* `interpolated?_copy`: what is interpolated in the markup of a copy.
-/
namespace ReactiveView.Template

open Text Expression Markup

/-! ## Accessors are expressions -/

/-- A character of a key as it stands between quotes. -/
def quoteChar (c : Char) : List Char := if c = '\\' ∨ c = '\'' then ['\\', c] else [c]

theorem quoteKey_eq (key : List Char) : quoteKey key = '\'' :: key.flatMap quoteChar ++ ['\''] := rfl

theorem quoted_flatMap_quoteChar (key : List Char) : Quoted '\'' (key.flatMap quoteChar) key := by
  induction key with
  | nil => exact .nil
  | cons c key ih =>
    rw [List.flatMap_cons, quoteChar]
    split
    · exact .escaped c ih
    · next h =>
      obtain ⟨hb, hq⟩ := not_or.mp h
      exact .plain hq hb ih

/-- A member that an accessor can name: a field, or an index of 64 bits. -/
def Accessible : Segment → Prop
  | .field _ => True
  | .index n => n < indexLimit

/-- What an accessor has behind the collection. -/
def brackets : Segment → List Char
  | .index n => ['['] ++ decimal n ++ [']']
  | .field key => ['['] ++ quoteKey key.toList ++ [']']

theorem accessor_eq (collection : List Char) (s : Segment) :
    accessor collection s = collection ++ brackets s := by
  cases s <;> simp [accessor, brackets]

theorem member_brackets {s : Segment} (hs : Accessible s) : Member (brackets s) s := by
  cases s with
  | field key =>
    have h := Member.quoted (.inl rfl) (padded_self ['[']) (quoted_flatMap_quoteChar key.toList)
      (padded_self _) (padded_self [']'])
    rwa [String.ofList_toList] at h
  | index n =>
    exact .index (padded_self ['[']) (isIndex_decimal hs) (padded_self _) (padded_self [']'])

theorem members_concat {ms cs : List Char} {segments : List Segment} {s : Segment}
    (h : Members ms segments) (hs : Member cs s) : Members (ms ++ cs) (segments ++ [s]) := by
  induction h with
  | nil =>
    have hsingle : Members (cs ++ []) [s] := .cons hs .nil
    rwa [List.append_nil] at hsingle
  | cons hm _ ih =>
    rw [List.append_assoc]
    exact .cons hm ih

/-- The accessor of a member spells the path that leads to it, behind the path of the collection. -/
theorem spells_accessor {collection : List Char} {path : Path}
    (hcollection : Spells collection path false) {s : Segment} (hs : Accessible s) :
    Spells (accessor collection s) (path ++ [s]) false := by
  obtain ⟨name, first, _, segments, hname, hfirst, ⟨ms, suffix, hms, hcall, rfl⟩, rfl, rfl⟩ :=
    hcollection
  cases hcall
  have hmembers := members_concat hms (member_brackets hs)
  rw [accessor_eq]
  exact ⟨name, first, ms ++ brackets s, segments ++ [s], hname, hfirst,
    ⟨ms ++ brackets s, [], hmembers, .none, by simp⟩, by simp, rfl⟩

theorem spells_name {name : List Char} (h : Expression.IsName name) :
    Spells name [.field (String.ofList name)] false :=
  ⟨name, name, [], [], h, padded_self name, ⟨[], [], .nil, .none, rfl⟩, by simp, rfl⟩

/-- The expression of an accessor. -/
def access (collection : List Char) (s : Segment) : Expression :=
  ⟨trimmed (String.ofList (accessor collection s)), String.ofList collection, [s], false⟩

/-- The accessor of a member is an expression that leads to the member. -/
theorem read_accessor {collection : List Char} (hname : Expression.IsName collection) {s : Segment}
    (hs : Accessible s) :
    Expression.read (String.ofList (accessor collection s)) = .ok (access collection s) := by
  refine (read_spells _ _).mpr ⟨?_, rfl⟩
  rw [String.toList_ofList]
  exact spells_accessor (spells_name hname) hs

/-! ## Accessors as markup -/

theorem escapeText_cons (c : Char) (cs : List Char) :
    escapeText (c :: cs) = escapeTextChar c ++ escapeText cs := List.flatMap_cons

theorem escapeText_eq_self {cs : List Char} (h : ∀ c ∈ cs, c ≠ '&' ∧ c ≠ '<' ∧ c ≠ '>') :
    escapeText cs = cs := by
  induction cs with
  | nil => rfl
  | cons c cs ih =>
    obtain ⟨hamp, hlt, hgt⟩ := h c List.mem_cons_self
    have hc : escapeTextChar c = [c] := by simp [escapeTextChar, hamp, hlt, hgt]
    rw [escapeText_cons, hc, ih fun d hd => h d (List.mem_cons_of_mem _ hd)]
    rfl

/-- The segment of a member whose key is escaped as markup. -/
def escapeSegment : Segment → Segment
  | .field key => .field (String.ofList (escapeText key.toList))
  | .index n => .index n

theorem escapeText_quoteChar (c : Char) :
    escapeText (quoteChar c) = (escapeTextChar c).flatMap quoteChar := by
  by_cases h : c ∈ ['&', '<', '>', '\\', '\'']
  · simp only [List.mem_cons, List.not_mem_nil, or_false] at h
    rcases h with rfl | rfl | rfl | rfl | rfl <;> decide
  · simp only [List.mem_cons, List.not_mem_nil, or_false, not_or] at h
    obtain ⟨hamp, hlt, hgt, hb, hq⟩ := h
    simp [quoteChar, escapeText, escapeTextChar, hamp, hlt, hgt, hb, hq]

theorem escapeText_flatMap_quoteChar (key : List Char) :
    escapeText (key.flatMap quoteChar) = (escapeText key).flatMap quoteChar := by
  induction key with
  | nil => rfl
  | cons c key ih =>
    rw [List.flatMap_cons, escapeText_append, ih, escapeText_quoteChar, escapeText_cons,
      List.flatMap_append]

/-- Escaping an accessor escapes the key. -/
theorem escapeText_accessor {collection : List Char}
    (hcollection : ∀ c ∈ collection, c ≠ '&' ∧ c ≠ '<' ∧ c ≠ '>') (s : Segment) :
    escapeText (accessor collection s) = accessor collection (escapeSegment s) := by
  rw [accessor_eq, accessor_eq, escapeText_append, escapeText_eq_self hcollection]
  cases s with
  | field key =>
    simp only [brackets, escapeSegment, quoteKey_eq, escapeText_append, escapeText_cons,
      String.toList_ofList, ← escapeText_flatMap_quoteChar]
    rfl
  | index n =>
    have hdecimal : escapeText (decimal n) = decimal n := escapeText_eq_self fun c hc => by
      have hd := isDigit_of_mem_decimal hc
      exact ⟨by rintro rfl; exact absurd hd (by decide), by rintro rfl; exact absurd hd (by decide),
        by rintro rfl; exact absurd hd (by decide)⟩
    simp only [brackets, escapeSegment, escapeText_append, hdecimal]
    rfl

/-! ## Interpolations -/

/-- A text holds a mark of an interpolation. -/
def hasMark (cs : List Char) : Bool := occurs openMark cs || occurs closeMark cs

/-- The text of a copy: an interpolation of the accessor. -/
def rowText (accessor : List Char) : List Char := openMark ++ ' ' :: accessor ++ ' ' :: closeMark

theorem escapeText_rowText (accessor : List Char) :
    escapeText (rowText accessor) = rowText (escapeText accessor) := by
  simp only [rowText, openMark, closeMark, escapeText_append, escapeText_cons]
  rfl

theorem substituteInside_of_cut {item accessor cs before rest inner after : List Char}
    (hopen : cut openMark cs = some (before, rest))
    (hclose : cut closeMark rest = some (inner, after)) :
    substituteInside item accessor cs = before ++ openMark ++ substitute item accessor inner ++
      closeMark ++ substituteInside item accessor after := by
  rw [substituteInside]
  split
  · next h =>
    rw [hopen] at h
    cases h
  · next h =>
    rw [hopen] at h
    cases h
    split
    · next h =>
      rw [hclose] at h
      cases h
    · next h =>
      rw [hclose] at h
      cases h
      rfl

/-- The item gives way to the accessor in the text of the template. -/
theorem substituteInside_item (accessor : List Char) :
    substituteInside "item".toList accessor (rowText "item".toList) = rowText accessor := by
  have hopen : cut openMark (rowText "item".toList) = some ([], " item \x7d\x7d".toList) := by
    decide +kernel
  have hclose : cut closeMark " item \x7d\x7d".toList = some (" item ".toList, []) := by
    decide +kernel
  have hblank : Blank [' '] := by simp [Blank, isBlank]
  have hword : ∀ c ∈ 'i' :: "tem".toList, Expression.isNameChar c :=
    List.all_eq_true.mp (by decide +kernel)
  have hstop : Stops Expression.isNameChar [' '] := stops_cons (by decide +kernel) []
  have hspaced : substituteFrom "item".toList accessor false [' '] = [' '] := by
    have h : substituteFrom "item".toList accessor false ([' '] ++ []) = _ :=
      substituteFrom_blank hblank []
    rwa [substituteFrom_nil] at h
  have hitem : substitute "item".toList accessor " item ".toList = ' ' :: accessor ++ [' '] := by
    have hname : "item".toList = 'i' :: "tem".toList := by decide +kernel
    refine (substituteFrom_blank hblank ("item".toList ++ [' '])).trans ?_
    rw [hname, substituteFrom_word hword hstop, if_pos (by decide +kernel), ← hname, hspaced]
    rfl
  have hrest : substituteInside "item".toList accessor [] = [] := by
    rw [substituteInside]
    rfl
  rw [substituteInside_of_cut hopen hclose, hitem, hrest]
  simp [rowText]

/-- A list item with a text. -/
def row (text : List Char) : Fragment := .element "li" [] [.text (String.ofList text)]

theorem substituteAll_row (isDirective : String → Bool) (accessor : List Char) :
    substituteAll isDirective "item".toList accessor [row (rowText "item".toList)]
      = [row (rowText accessor)] := by
  simp only [row, substituteAll, substituteOne, String.toList_ofList, substituteInside_item]
  rfl

theorem between?_marks (inner : List Char) :
    between? openMark closeMark (openMark ++ inner ++ closeMark) = some inner := by
  have hfront : openMark.isPrefixOf (openMark ++ inner ++ closeMark) :=
    List.isPrefixOf_iff_prefix.mpr ⟨inner ++ closeMark, by simp⟩
  have hdrop : (openMark ++ inner ++ closeMark).drop openMark.length = inner ++ closeMark := by simp
  have hback : closeMark.isSuffixOf (inner ++ closeMark) :=
    List.isSuffixOf_iff_suffix.mpr (List.suffix_append _ _)
  rw [between?, if_pos hfront, hdrop]
  simp only [hback, if_true, List.length_append, Nat.add_sub_cancel, List.take_left']

/-- What is interpolated is the accessor, unless it has a mark in it. -/
theorem interpolated?_rowText {c d : Char} (hc : isBlank c = false) (hd : isBlank d = false)
    (cs : List Char) : interpolated? (rowText (c :: cs ++ [d]))
      = if hasMark (' ' :: (c :: cs ++ [d]) ++ [' ']) then none else some (c :: cs ++ [d]) := by
  have hblank : Blank [' '] := by simp [Blank, isBlank]
  have hinner : trim (' ' :: (c :: cs ++ [d]) ++ [' ']) = c :: cs ++ [d] :=
    trim_padded hblank hblank hc hd cs
  have htrim : trim (rowText (c :: cs ++ [d])) = rowText (c :: cs ++ [d]) := by
    have hopen : isBlank '\x7b' = false := by decide
    have hclose : isBlank '\x7d' = false := by decide
    have h := trim_padded blank_nil blank_nil hopen hclose
      ('\x7b' :: ' ' :: (c :: cs ++ [d]) ++ [' ', '\x7d'])
    simpa [rowText, openMark, closeMark] using h
  have hbetween : between? openMark closeMark (rowText (c :: cs ++ [d]))
      = some (' ' :: (c :: cs ++ [d]) ++ [' ']) := by
    have hmarks := between?_marks (' ' :: (c :: cs ++ [d]) ++ [' '])
    simpa only [rowText, List.append_assoc, List.cons_append, List.nil_append] using hmarks
  rw [interpolated?, htrim, hbetween]
  simp only [hinner, hasMark]
  rfl

/-- An interpolation starts with the mark that opens it, blanks apart. -/
theorem prefix_of_interpolated? {cs expression : List Char}
    (h : interpolated? cs = some expression) : openMark <+: skipBlank cs := by
  unfold interpolated? at h
  split at h
  · cases h
  · next inner hinner =>
    unfold between? at hinner
    split at hinner
    · next hfront =>
      obtain ⟨us, -, hus⟩ := exists_trimRight_append_blank (skipBlank cs)
      rw [hus]
      exact (List.isPrefixOf_iff_prefix.mp hfront).trans (List.prefix_append _ _)
    · cases hinner

/-- Markup that starts with a tag is no interpolation. -/
theorem interpolated?_tag (cs : List Char) : interpolated? ('<' :: cs) = none := by
  refine Option.eq_none_iff_forall_ne_some.mpr fun expression h => ?_
  have hprefix := prefix_of_interpolated? h
  rw [skipBlank_cons (by decide)] at hprefix
  obtain ⟨rest, hrest⟩ := hprefix
  cases hrest

/-! ## Marks in accessors -/

theorem occurs_pair_cons (b c : Char) (cs : List Char) :
    occurs [b, b] (c :: cs) = (c == b && cs.head? == some b || occurs [b, b] cs) := by
  have hprefix : [b, b].isPrefixOf (c :: cs) = (c == b && cs.head? == some b) := by
    cases cs <;> simp [List.isPrefixOf, Bool.beq_comm]
  rw [occurs, cut, hprefix, occurs]
  cases c == b && cs.head? == some b with
  | true => rfl
  | false => simp

theorem occurs_pair_append {b : Char} {front : List Char} (h : ∀ c ∈ front, c ≠ b)
    (cs : List Char) : occurs [b, b] (front ++ cs) = occurs [b, b] cs := by
  induction front with
  | nil => rfl
  | cons c front ih =>
    have hc : (c == b) = false := beq_eq_false_iff_ne.mpr (h c List.mem_cons_self)
    rw [List.cons_append, occurs_pair_cons, hc, Bool.false_and, Bool.false_or,
      ih fun d hd => h d (List.mem_cons_of_mem _ hd)]

/-- The marks of interpolations are made of braces. -/
def IsBrace (b : Char) : Prop := b = '\x7b' ∨ b = '\x7d'

theorem IsBrace.ne {b c : Char} (hb : IsBrace b) (hopen : c ≠ '\x7b') (hclose : c ≠ '\x7d') :
    c ≠ b := by
  rcases hb with rfl | rfl
  · exact hopen
  · exact hclose

/-! Characters spelled one by one, where each stands for itself, or neither it nor any character of
its spelling is a brace: a mark is neither made nor broken. -/

section Spelled

variable {b : Char} {f : Char → List Char} {rest : List Char}
  (hf : ∀ c, f c = [c] ∨ c ≠ b ∧ f c ≠ [] ∧ ∀ d ∈ f c, d ≠ b) (hrest : ∀ c ∈ rest, c ≠ b)
include hf hrest

theorem head?_flatMap (cs : List Char) :
    ((cs.flatMap f ++ rest).head? == some b) = (cs.head? == some b) := by
  cases cs with
  | nil =>
    cases rest with
    | nil => rfl
    | cons c rest => simp [hrest c List.mem_cons_self]
  | cons c cs =>
    rw [List.flatMap_cons]
    rcases hf c with hc | ⟨hc, hne, hspelling⟩
    · rw [hc]
      rfl
    · obtain ⟨d, ds, hd⟩ := List.exists_cons_of_ne_nil hne
      have hdb : d ≠ b := hspelling d (by rw [hd]; exact List.mem_cons_self)
      simp only [hd, List.cons_append, List.head?_cons, Option.some_beq_some,
        beq_eq_false_iff_ne.mpr hc, beq_eq_false_iff_ne.mpr hdb]

theorem occurs_flatMap (cs : List Char) :
    occurs [b, b] (cs.flatMap f ++ rest) = occurs [b, b] cs := by
  induction cs with
  | nil =>
    have h := occurs_pair_append hrest []
    rwa [List.append_nil] at h
  | cons c cs ih =>
    rw [List.flatMap_cons, List.append_assoc, occurs_pair_cons]
    rcases hf c with hc | ⟨hc, -, hspelling⟩
    · rw [hc, List.singleton_append, occurs_pair_cons, head?_flatMap hf hrest, ih]
    · rw [occurs_pair_append hspelling, ih]
      simp [hc]

end Spelled

theorem quoteChar_cases {b : Char} (hb : IsBrace b) (c : Char) :
    quoteChar c = [c] ∨ c ≠ b ∧ quoteChar c ≠ [] ∧ ∀ d ∈ quoteChar c, d ≠ b := by
  have hback : '\\' ≠ b := hb.ne (by decide) (by decide)
  have hquote : '\'' ≠ b := hb.ne (by decide) (by decide)
  unfold quoteChar
  split
  · next h => rcases h with rfl | rfl <;> simp [hback, hquote]
  · exact .inl rfl

theorem escapeTextChar_cases {b : Char} (hb : IsBrace b) (c : Char) :
    escapeTextChar c = [c] ∨ c ≠ b ∧ escapeTextChar c ≠ [] ∧ ∀ d ∈ escapeTextChar c, d ≠ b := by
  have hfree : ∀ cs : List Char, '\x7b' ∉ cs ∧ '\x7d' ∉ cs → ∀ d ∈ cs, d ≠ b := by
    intro cs hcs d hd
    exact hb.ne (ne_of_mem_of_not_mem hd hcs.1) (ne_of_mem_of_not_mem hd hcs.2)
  unfold escapeTextChar
  split
  · next h => exact .inr ⟨h ▸ hb.ne (by decide) (by decide), by decide, hfree _ (by decide)⟩
  split
  · next h => exact .inr ⟨h ▸ hb.ne (by decide) (by decide), by decide, hfree _ (by decide)⟩
  split
  · next h => exact .inr ⟨h ▸ hb.ne (by decide) (by decide), by decide, hfree _ (by decide)⟩
  · exact .inl rfl

/-- Escaping a text neither makes nor breaks a mark. -/
theorem hasMark_escapeText (cs : List Char) : hasMark (escapeText cs) = hasMark cs := by
  have hescape {b : Char} (hb : IsBrace b) : occurs [b, b] (escapeText cs) = occurs [b, b] cs := by
    have h := occurs_flatMap (escapeTextChar_cases hb) (List.forall_mem_nil _) cs
    rwa [List.append_nil] at h
  rw [hasMark, openMark, closeMark, hescape (.inl rfl), hescape (.inr rfl)]
  rfl

theorem ne_of_mem_decimal {b : Char} (hb : IsBrace b) {n : Nat} {c : Char} (hc : c ∈ decimal n) :
    c ≠ b := by
  have hdigit := isDigit_of_mem_decimal hc
  refine hb.ne ?_ ?_ <;> (rintro rfl; exact absurd hdigit (by decide))

theorem occurs_decimal {b : Char} (hb : IsBrace b) (n : Nat) : occurs [b, b] (decimal n) = false := by
  have h : occurs [b, b] (decimal n ++ []) = occurs [b, b] [] :=
    occurs_pair_append (fun c hc => ne_of_mem_decimal hb hc) []
  rw [List.append_nil] at h
  exact h

/-- Escaping a key neither makes nor breaks a mark. -/
theorem hasMark_escapeSegment (s : Segment) :
    hasMark (escapeSegment s).key.toList = hasMark s.key.toList := by
  cases s with
  | field key =>
    rw [escapeSegment, Segment.key, String.toList_ofList]
    exact hasMark_escapeText key.toList
  | index n => rfl

/-- There is no mark in an index. -/
theorem hasMark_index (n : Nat) : hasMark (Segment.key (.index n)).toList = false := by
  rw [Segment.key, String.toList_ofList, hasMark, openMark, closeMark, occurs_decimal (.inl rfl),
    occurs_decimal (.inr rfl)]
  rfl

/-- An accessor has the marks of its key. -/
theorem occurs_accessor {b : Char} (hb : IsBrace b) {collection : List Char}
    (hcollection : ∀ c ∈ collection, c ≠ b) (s : Segment) :
    occurs [b, b] (' ' :: accessor collection s ++ [' ']) = occurs [b, b] s.key.toList := by
  have hblank : ' ' ≠ b := hb.ne (by decide) (by decide)
  have hleft : '[' ≠ b := hb.ne (by decide) (by decide)
  have hright : ']' ≠ b := hb.ne (by decide) (by decide)
  have hquote : '\'' ≠ b := hb.ne (by decide) (by decide)
  cases s with
  | field key =>
    have hfront : ∀ c ∈ ' ' :: collection ++ ['[', '\''], c ≠ b := by
      simp only [List.cons_append, List.forall_mem_cons, List.forall_mem_append]
      exact ⟨hblank, hcollection, hleft, hquote, nofun⟩
    have hback : ∀ c ∈ ['\'', ']', ' '], c ≠ b := by simp [hquote, hright, hblank]
    have heq : ' ' :: accessor collection (.field key) ++ [' ']
        = (' ' :: collection ++ ['[', '\'']) ++ (key.toList.flatMap quoteChar ++ ['\'', ']', ' ']) := by
      simp [accessor, quoteKey_eq]
    rw [heq, occurs_pair_append hfront, occurs_flatMap (quoteChar_cases hb) hback]
    rfl
  | index n =>
    have hdecimal : ∀ c ∈ decimal n, c ≠ b := fun c hc => ne_of_mem_decimal hb hc
    have hall : ∀ c ∈ ' ' :: accessor collection (.index n) ++ [' '], c ≠ b := by
      simp only [accessor, List.cons_append, List.forall_mem_cons, List.forall_mem_append]
      exact ⟨hblank, ⟨⟨hcollection, hleft, hdecimal⟩, hright, nofun⟩, hblank, nofun⟩
    have hnone := occurs_pair_append hall []
    rw [List.append_nil] at hnone
    rw [hnone, Segment.key, String.toList_ofList, occurs_decimal hb]
    rfl

/-- An accessor holds a mark exactly when its key does. -/
theorem hasMark_accessor {collection : List Char}
    (hcollection : ∀ c ∈ collection, c ≠ '\x7b' ∧ c ≠ '\x7d') (s : Segment) :
    hasMark (' ' :: accessor collection s ++ [' ']) = hasMark s.key.toList := by
  have hopen := occurs_accessor (.inl rfl) (fun c hc => (hcollection c hc).1) s
  have hclose := occurs_accessor (.inr rfl) (fun c hc => (hcollection c hc).2) s
  rw [hasMark, openMark, closeMark, hopen, hclose]
  rfl

/-- What is interpolated in the markup of a copy: the accessor of the member with its key escaped,
unless there is a mark in this key. -/
theorem interpolated?_copy {collection : List Char} (hname : Expression.IsName collection)
    (s : Segment) : interpolated? (escapeText (rowText (accessor collection s)))
      = if hasMark (escapeSegment s).key.toList then none
        else some (accessor collection (escapeSegment s)) := by
  have hother : ∀ d, Expression.isNameChar d = false → ∀ c ∈ collection, c ≠ d := by
    rintro d hd c hc rfl
    rw [hname.chars c hc] at hd
    cases hd
  have hescape : ∀ c ∈ collection, c ≠ '&' ∧ c ≠ '<' ∧ c ≠ '>' := fun c hc =>
    ⟨hother '&' (by decide +kernel) c hc, hother '<' (by decide +kernel) c hc,
      hother '>' (by decide +kernel) c hc⟩
  have hmark : ∀ c ∈ collection, c ≠ '\x7b' ∧ c ≠ '\x7d' := fun c hc =>
    ⟨hother '\x7b' (by decide +kernel) c hc, hother '\x7d' (by decide +kernel) c hc⟩
  obtain ⟨c, rest, hcons⟩ := List.exists_cons_of_ne_nil hname.ne_nil
  have hblank : isBlank c = false :=
    isBlank_eq_false_of_isNameChar (hname.chars c (hcons ▸ List.mem_cons_self))
  have hends : ∃ cs, accessor collection (escapeSegment s) = c :: cs ++ [']'] := by
    subst hcons
    cases s <;> exact ⟨_, by rw [escapeSegment, accessor]; rfl⟩
  obtain ⟨cs, hcs⟩ := hends
  rw [escapeText_rowText, escapeText_accessor hescape, hcs,
    interpolated?_rowText hblank (by decide), ← hcs, hasMark_accessor hmark]

end ReactiveView.Template
