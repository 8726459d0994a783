import ReactiveView.Proofs.Number.ReadBack
import ReactiveView.Value.Json
/-!
# The text of a value tells the value

`display` forgets two things: what is not finite is written `null`, and zero is written without a
sign. Nothing else is lost: two values with one text have the same normal form, with the entries of
records in the same order.

Quotes hold what they quote. A quoted character is read back whatever comes after it, and none is
written with a bare quotation mark, so a quoted text ends where it was closed. Outside quotes the
first character of a text tells the kind of the value, a numeral ends at the first character that
is not one of numerals, and what comes after a value starts with a comma or a closing bracket. The
induction therefore is on two values and what comes after each.

Results:
* `quote_append_inj`: two quoted texts, whatever comes after them, are one only if they quote one.
* `display_normal`: the normal form of a value has its text.
* `display_eq_display_iff`: two values have one text iff they have one normal form.
-/
namespace ReactiveView

/-! ## Quoted texts -/

namespace JsonStyle

/-- The characters that an escape of one letter stands for. -/
def letterEscapes : List (Char × Char) :=
  [('"', '"'), ('\\', '\\'), ('n', '\n'), ('r', '\r'), ('t', '\t')]

/-- The character that a quoted text starts with, and what comes after it. -/
def readPiece : List Char → Option (Char × List Char)
  | [] => none
  | '\\' :: 'u' :: '0' :: '0' :: a :: b :: rest =>
    (Text.digitsValue 16 0 [a, b]).map fun n => (Char.ofNat n, rest)
  | '\\' :: letter :: rest => (letterEscapes.lookup letter).map fun c => (c, rest)
  | c :: rest => some (c, rest)

theorem digitValue_hexDigit : ∀ n < 16, Text.digitValue 16 (hexDigit n) = some n := by decide

theorem digitsValue_hexDigits {n : Nat} (h : n < 256) :
    Text.digitsValue 16 0 [hexDigit (n / 16), hexDigit (n % 16)] = some n := by
  have hhigh : n / 16 < 16 := by omega
  have hlow : n % 16 < 16 := by omega
  simp only [Text.digitsValue, digitValue_hexDigit _ hhigh, digitValue_hexDigit _ hlow,
    Option.bind_some, Option.some.injEq]
  omega

/-- A character in quotes is read back, whatever comes after it. -/
theorem readPiece_escape (c : Char) (rest : List Char) :
    readPiece (display.escape c ++ rest) = some (c, rest) := by
  unfold escape
  split
  next h => subst h; rfl
  split
  next h => subst h; rfl
  next hquote hslash =>
    split
    next letter hletter =>
      obtain ⟨front, back, hletters, -⟩ := List.lookup_eq_some_iff.mp hletter
      have hmem : (c, letter) ∈ display.letters := by rw [hletters]; simp
      simp only [display, List.mem_cons, List.not_mem_nil, or_false, Prod.mk.injEq] at hmem
      rcases hmem with ⟨rfl, rfl⟩ | ⟨rfl, rfl⟩ | ⟨rfl, rfl⟩ <;> rfl
    next hplain =>
      split
      next hcontrol =>
        simp only [List.cons_append, List.nil_append, readPiece]
        rw [digitsValue_hexDigits (by omega), Option.map_some, Char.ofNat_toNat]
      next => simp [readPiece, hslash]

/-- No character is written with a bare quotation mark in front. -/
theorem escape_append_ne (c : Char) (cs ds : List Char) : display.escape c ++ cs ≠ '"' :: ds := by
  intro h
  have hread := readPiece_escape c cs
  rw [h] at hread
  obtain ⟨rfl, -⟩ := Prod.mk.inj (Option.some.inj hread)
  cases h

theorem escaped_append_inj {cs ds as bs : List Char}
    (h : cs.flatMap display.escape ++ '"' :: as = ds.flatMap display.escape ++ '"' :: bs) :
    cs = ds ∧ as = bs := by
  induction cs generalizing ds with
  | nil =>
    cases ds with
    | nil => exact ⟨rfl, (List.cons.inj h).2⟩
    | cons d ds =>
      rw [List.flatMap_cons, List.append_assoc] at h
      exact absurd h.symm (escape_append_ne d _ _)
  | cons c cs ih =>
    rw [List.flatMap_cons, List.append_assoc] at h
    cases ds with
    | nil => exact absurd h (escape_append_ne c _ _)
    | cons d ds =>
      rw [List.flatMap_cons, List.append_assoc] at h
      have hread := congrArg readPiece h
      rw [readPiece_escape, readPiece_escape] at hread
      obtain ⟨rfl, hrest⟩ := Prod.mk.inj (Option.some.inj hread)
      obtain ⟨rfl, hafter⟩ := ih hrest
      exact ⟨rfl, hafter⟩

/-- Quoted texts hold what they quote. -/
theorem quote_append_inj {s t : String} {as bs : List Char}
    (h : display.quote s ++ as = display.quote t ++ bs) : s = t ∧ as = bs := by
  simp only [quote, List.cons_append, List.append_assoc, List.nil_append, List.cons.injEq,
    true_and] at h
  obtain ⟨hs, hafter⟩ := escaped_append_inj h
  exact ⟨String.toList_inj.mp hs, hafter⟩

end JsonStyle

/-! ## Normal forms -/

namespace Value

mutual

/-- The value that a data text tells: null for what is not finite, and zero without a sign. -/
def normal : Value → Value
  | .number n => if n.isFinite then .number n.unsigned else .null
  | .list items => .list (normalItems items)
  | .record entries => .record (normalEntries entries)
  | v => v

/-- The elements of a list in normal form. -/
def normalItems : List Value → List Value
  | [] => []
  | v :: rest => v.normal :: normalItems rest

/-- The entries of a record in normal form. -/
def normalEntries : List (String × Value) → List (String × Value)
  | [] => []
  | (k, v) :: rest => (k, v.normal) :: normalEntries rest

end

mutual

theorem normal_normal (v : Value) : v.normal.normal = v.normal := by
  cases v with
  | number n =>
    cases n with
    | nan | infinite => rfl
    | finite negative size => simp [normal, Number.isFinite, Number.unsigned]
  | list items => rw [normal, normal, normalItems_normalItems items]
  | record entries => rw [normal, normal, normalEntries_normalEntries entries]
  | _ => rfl

theorem normalItems_normalItems (vs : List Value) :
    normalItems (normalItems vs) = normalItems vs := by
  cases vs with
  | nil => rfl
  | cons v rest =>
    rw [normalItems, normalItems, normal_normal v, normalItems_normalItems rest]

theorem normalEntries_normalEntries (es : List (String × Value)) :
    normalEntries (normalEntries es) = normalEntries es := by
  cases es with
  | nil => rfl
  | cons e rest =>
    obtain ⟨k, v⟩ := e
    rw [normalEntries, normalEntries, normal_normal v, normalEntries_normalEntries rest]

end

mutual

theorem compact_normal (style : JsonStyle) (v : Value) (after : List Char) :
    v.normal.compact style after = v.compact style after := by
  cases v with
  | number n =>
    rw [normal]
    split
    next => rw [compact, compact, Number.dataText_unsigned]
    next h =>
      rw [compact, compact, Number.dataText_of_not_finite (Bool.eq_false_iff.mpr h)]
  | list items => rw [normal, compact, compact, compactItems_normalItems style true items]
  | record entries =>
    rw [normal, compact, compact, compactEntries_normalEntries style true entries]
  | _ => rfl

theorem compactItems_normalItems (style : JsonStyle) (first : Bool) (vs : List Value)
    (after : List Char) :
    compactItems style first (normalItems vs) after = compactItems style first vs after := by
  cases vs with
  | nil => rfl
  | cons v rest =>
    rw [normalItems, compactItems, compactItems, compactItems_normalItems style false rest,
      compact_normal style v]

theorem compactEntries_normalEntries (style : JsonStyle) (first : Bool)
    (es : List (String × Value)) (after : List Char) :
    compactEntries style first (normalEntries es) after = compactEntries style first es after := by
  cases es with
  | nil => rfl
  | cons e rest =>
    obtain ⟨k, v⟩ := e
    rw [normalEntries, compactEntries, compactEntries,
      compactEntries_normalEntries style false rest, compact_normal style v]

end

theorem display_normal (v : Value) : v.normal.display = v.display := by
  rw [display, display, compact_normal]

/-- A number in normal form is finite. -/
theorem isFinite_of_normal {n : Number} (h : (number n).normal = .number n) :
    n.isFinite ∧ n.unsigned = n := by
  rw [normal] at h
  split at h
  next hfinite => exact ⟨hfinite, Value.number.inj h⟩
  next => cases h

/-! ## The text tells the normal form -/

/-- The kind of value whose text starts with a character. -/
def kindOf (c : Char) : String :=
  if Number.isNumeral c then "number"
  else if c = 'n' then "null"
  else if c = 't' ∨ c = 'f' then "boolean"
  else if c = '"' then "string"
  else if c = '[' then "array"
  else if c = '\x7b' then "object"
  else ""

theorem compact_head {v : Value} (hv : v.normal = v) (after : List Char) :
    ∃ c rest, v.compact .display after = c :: rest ∧ kindOf c = v.kind := by
  cases v with
  | null => exact ⟨'n', _, rfl, (by decide : kindOf 'n' = "null")⟩
  | bool b =>
    cases b
    · exact ⟨'f', _, rfl, (by decide : kindOf 'f' = "boolean")⟩
    · exact ⟨'t', _, rfl, (by decide : kindOf 't' = "boolean")⟩
  | number n =>
    obtain ⟨hfinite, -⟩ := isFinite_of_normal hv
    obtain ⟨c, rest, htext⟩ := List.exists_cons_of_ne_nil (Number.dataText_ne_nil hfinite)
    have hc : Number.isNumeral c :=
      Number.isNumeral_dataText hfinite c (htext ▸ List.mem_cons_self)
    refine ⟨c, rest ++ after, ?_, if_pos hc⟩
    rw [compact, JsonStyle.display, htext, List.cons_append]
  | text s => exact ⟨'"', _, rfl, (by decide : kindOf '"' = "string")⟩
  | list items => exact ⟨'[', _, rfl, (by decide : kindOf '[' = "array")⟩
  | record entries => exact ⟨'\x7b', _, rfl, (by decide : kindOf '\x7b' = "object")⟩

/-- No value starts with a comma or a closing bracket. -/
theorem compact_ne {v : Value} (hv : v.normal = v) {c : Char} (hc : kindOf c = "")
    (after rest : List Char) : v.compact .display after ≠ c :: rest := by
  intro h
  obtain ⟨d, rest', htext, hkind⟩ := compact_head hv after
  rw [htext] at h
  rw [(List.cons.inj h).1, hc] at hkind
  cases v <;> simp [kind] at hkind

/-- Values with one text, whatever comes after them, are of one kind. -/
theorem kind_eq_of_compact {a b : Value} (ha : a.normal = a) (hb : b.normal = b)
    {as bs : List Char} (h : a.compact .display as = b.compact .display bs) : a.kind = b.kind := by
  obtain ⟨c, cs, hca, hkinda⟩ := compact_head ha as
  obtain ⟨d, ds, hdb, hkindb⟩ := compact_head hb bs
  rw [hca, hdb] at h
  rw [← hkinda, ← hkindb, (List.cons.inj h).1]

/-- What comes after an element of a list does not go on with a numeral. -/
theorem stops_compactItems (vs : List Value) (after : List Char) :
    Text.Stops Number.isNumeral (compactItems .display false vs (']' :: after)) := by
  cases vs with
  | nil => exact Text.stops_cons (by decide) after
  | cons v rest => exact Text.stops_cons (by decide) _

/-- What comes after an entry of a record does not go on with a numeral. -/
theorem stops_compactEntries (es : List (String × Value)) (after : List Char) :
    Text.Stops Number.isNumeral (compactEntries .display false es ('\x7d' :: after)) := by
  cases es with
  | nil => exact Text.stops_cons (by decide) after
  | cons e rest => exact Text.stops_cons (by decide) _

/-- Numerals end where their characters end. -/
theorem numeral_append_inj {n m : Number} (hn : n.isFinite) (hm : m.isFinite) {as bs : List Char}
    (has : Text.Stops Number.isNumeral as) (hbs : Text.Stops Number.isNumeral bs)
    (h : n.dataText .plain ++ as = m.dataText .plain ++ bs) :
    n.dataText .plain = m.dataText .plain ∧ as = bs := by
  have hfront := congrArg (List.takeWhile Number.isNumeral) h
  have hback := congrArg (List.dropWhile Number.isNumeral) h
  rw [Text.takeWhile_append_stop (Number.isNumeral_dataText hn) has,
    Text.takeWhile_append_stop (Number.isNumeral_dataText hm) hbs] at hfront
  rw [Text.dropWhile_append_stop (Number.isNumeral_dataText hn) has,
    Text.dropWhile_append_stop (Number.isNumeral_dataText hm) hbs] at hback
  exact ⟨hfront, hback⟩

theorem compactItems_ne (first : Bool) {v : Value} (hv : v.normal = v) (vs : List Value)
    (after rest : List Char) : compactItems .display first (v :: vs) after ≠ ']' :: rest := by
  cases first with
  | false => exact fun h => absurd (List.cons.inj h).1 (by decide)
  | true => exact compact_ne hv (by decide) _ rest

theorem compactEntries_ne (first : Bool) (e : String × Value) (es : List (String × Value))
    (after rest : List Char) : compactEntries .display first (e :: es) after ≠ '\x7d' :: rest := by
  cases first with
  | false => exact fun h => absurd (List.cons.inj h).1 (by decide)
  | true => exact fun h => absurd (List.cons.inj h).1 (by decide)

mutual

theorem compact_inj (a b : Value) (ha : a.normal = a) (hb : b.normal = b) {as bs : List Char}
    (has : Text.Stops Number.isNumeral as) (hbs : Text.Stops Number.isNumeral bs)
    (h : a.compact .display as = b.compact .display bs) : a = b ∧ as = bs := by
  have hkind := kind_eq_of_compact ha hb h
  cases a with
  | null =>
    cases b with
    | null => exact ⟨rfl, List.append_cancel_left h⟩
    | _ => exact absurd hkind (by simp [kind])
  | bool x =>
    cases b with
    | bool y =>
      cases x <;> cases y
      · exact ⟨rfl, List.append_cancel_left h⟩
      · exact absurd (List.cons.inj h).1 (by decide)
      · exact absurd (List.cons.inj h).1 (by decide)
      · exact ⟨rfl, List.append_cancel_left h⟩
    | _ => exact absurd hkind (by simp [kind])
  | number n =>
    cases b with
    | number m =>
      obtain ⟨hn, hun⟩ := isFinite_of_normal ha
      obtain ⟨hm, hum⟩ := isFinite_of_normal hb
      obtain ⟨htext, hafter⟩ := numeral_append_inj hn hm has hbs h
      have heq := Number.unsigned_eq_of_dataText hn hm htext
      rw [hun, hum] at heq
      exact ⟨congrArg number heq, hafter⟩
    | _ => exact absurd hkind (by simp [kind])
  | text s =>
    cases b with
    | text t =>
      obtain ⟨rfl, hafter⟩ := JsonStyle.quote_append_inj h
      exact ⟨rfl, hafter⟩
    | _ => exact absurd hkind (by simp [kind])
  | list xs =>
    cases b with
    | list ys =>
      obtain ⟨rfl, hafter⟩ := compactItems_inj true xs ys (list.inj ha) (list.inj hb)
        (List.cons.inj h).2
      exact ⟨rfl, hafter⟩
    | _ => exact absurd hkind (by simp [kind])
  | record es =>
    cases b with
    | record fs =>
      obtain ⟨rfl, hafter⟩ := compactEntries_inj true es fs (record.inj ha) (record.inj hb)
        (List.cons.inj h).2
      exact ⟨rfl, hafter⟩
    | _ => exact absurd hkind (by simp [kind])

theorem compactItems_inj (first : Bool) (xs ys : List Value) (hx : normalItems xs = xs)
    (hy : normalItems ys = ys) {as bs : List Char}
    (h : compactItems .display first xs (']' :: as) = compactItems .display first ys (']' :: bs)) :
    xs = ys ∧ as = bs := by
  cases xs with
  | nil =>
    cases ys with
    | nil => exact ⟨rfl, (List.cons.inj h).2⟩
    | cons y ys => exact absurd h.symm (compactItems_ne first (List.cons.inj hy).1 ys _ _)
  | cons x xs =>
    cases ys with
    | nil => exact absurd h (compactItems_ne first (List.cons.inj hx).1 xs _ _)
    | cons y ys =>
      simp only [compactItems] at h
      obtain ⟨rfl, hrest⟩ := compact_inj x y (List.cons.inj hx).1 (List.cons.inj hy).1
        (stops_compactItems xs as) (stops_compactItems ys bs) (List.append_cancel_left h)
      obtain ⟨rfl, hafter⟩ := compactItems_inj false xs ys (List.cons.inj hx).2
        (List.cons.inj hy).2 hrest
      exact ⟨rfl, hafter⟩

theorem compactEntries_inj (first : Bool) (es fs : List (String × Value))
    (he : normalEntries es = es) (hf : normalEntries fs = fs) {as bs : List Char}
    (h : compactEntries .display first es ('\x7d' :: as) =
      compactEntries .display first fs ('\x7d' :: bs)) : es = fs ∧ as = bs := by
  cases es with
  | nil =>
    cases fs with
    | nil => exact ⟨rfl, (List.cons.inj h).2⟩
    | cons f fs => exact absurd h.symm (compactEntries_ne first f fs _ _)
  | cons e es =>
    cases fs with
    | nil => exact absurd h (compactEntries_ne first e es _ _)
    | cons f fs =>
      obtain ⟨k, x⟩ := e
      obtain ⟨l, y⟩ := f
      obtain ⟨hx, hes⟩ := List.cons.inj he
      obtain ⟨hy, hfs⟩ := List.cons.inj hf
      simp only [compactEntries, List.append_assoc] at h
      obtain ⟨rfl, hvalue⟩ := JsonStyle.quote_append_inj (List.append_cancel_left h)
      obtain ⟨rfl, hrest⟩ := compact_inj x y (Prod.mk.inj hx).2 (Prod.mk.inj hy).2
        (stops_compactEntries es as) (stops_compactEntries fs bs) (List.cons.inj hvalue).2
      obtain ⟨rfl, hafter⟩ := compactEntries_inj false es fs hes hfs hrest
      exact ⟨rfl, hafter⟩

end

/-- Two values have one text iff they have one normal form. -/
theorem display_eq_display_iff (a b : Value) : a.display = b.display ↔ a.normal = b.normal := by
  constructor
  · intro h
    rw [← display_normal a, ← display_normal b] at h
    exact (compact_inj a.normal b.normal (normal_normal a) (normal_normal b) (Text.stops_nil _)
      (Text.stops_nil _) (String.ofList_inj.mp h)).1
  · intro h
    rw [← display_normal a, ← display_normal b, h]

end Value

end ReactiveView
