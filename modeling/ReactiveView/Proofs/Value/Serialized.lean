import Mathlib.Data.List.Basic
import ReactiveView.Value.Json
/-!
# Values through a serializer

A value is serialized by calls to a serializer that knows nothing of values (`Value.calls`): one
call for a scalar, and around the members of a container one that opens and one that closes it, with
a mark in front of each element and the key in front of each entry.

**The formatter (`IsCompact`, a hypothesis).** What answers the calls is a library. All that is known
of it is what it writes for the calls of one whole value (`Complete`):
* Literals: `null`, `true` and `false`. An integer of less than 64 bits is written in decimal, and a
  number that is not finite as `null`. Of other numbers nothing is asked.
* Texts: quotation marks around the text, in which each character stands for itself or is escaped
  (`Escapes`).
* Containers: what is written for the members, with commas between them, in brackets; in front of
  the value of an entry its key, as a text, and a colon.

The text of a value, which `compact` builds from the inside out, is what such a formatter writes for
its calls, as far as the numbers and texts in the value are written alike (`compact_eq_write`). For
`json` this asks of the formatter how it lays out the numbers that are no integers. For `display` it
asks of the value that its numbers are short integers or not finite, and that no text holds one of
the two control characters that have a letter in `json` alone.

Results:
* `display_eq_serialized`: on these values the text in messages is what the formatter writes.
* `json_eq_serialized`: the text for exchange is what a formatter with its layout writes.
* `isCompact_print`: there is such a formatter. It answers each call at once, and all it remembers
  is, for each open container, whether a member has been written.
* `display_eq_json`: on these values the two texts are one.
-/
namespace ReactiveView

/-! ## Calls -/

/-- A call to a serializer. -/
inductive SerialCall where
  | null
  | bool (b : Bool)
  | whole (i : Int)
  | real (n : Number)
  | text (s : String)
  | openList
  | element
  | closeList
  | openRecord
  | key (k : String)
  | closeRecord

namespace Value

mutual

/-- The calls that serialize a value, in front of later ones. -/
def calls : Value → List SerialCall → List SerialCall
  | .null, after => .null :: after
  | .bool b, after => .bool b :: after
  | .number n, after =>
    match n.short? with
    | some i => .whole i :: after
    | none => .real n :: after
  | .text s, after => .text s :: after
  | .list items, after => .openList :: callsOfItems items (.closeList :: after)
  | .record entries, after => .openRecord :: callsOfEntries entries (.closeRecord :: after)

/-- The calls for the elements of a list. -/
def callsOfItems : List Value → List SerialCall → List SerialCall
  | [], after => after
  | v :: rest, after => .element :: calls v (callsOfItems rest after)

/-- The calls for the entries of a record. -/
def callsOfEntries : List (String × Value) → List SerialCall → List SerialCall
  | [], after => after
  | (k, v) :: rest, after => .key k :: calls v (callsOfEntries rest after)

end

end Value

namespace SerialCall

/-- The calls for a list whose elements have these calls. -/
def ofList (items : List (List SerialCall)) : List SerialCall :=
  .openList :: items.flatMap (.element :: ·) ++ [.closeList]

theorem ofList_append (items : List (List SerialCall)) (after : List SerialCall) :
    ofList items ++ after = .openList :: (items.flatMap (.element :: ·) ++ .closeList :: after) := by
  simp [ofList]

/-- The calls for a record whose entries have these keys, and values with these calls. -/
def ofRecord (entries : List (String × List SerialCall)) : List SerialCall :=
  .openRecord :: entries.flatMap (fun e => .key e.1 :: e.2) ++ [.closeRecord]

theorem ofRecord_append (entries : List (String × List SerialCall)) (after : List SerialCall) :
    ofRecord entries ++ after
      = .openRecord :: (entries.flatMap (fun e => .key e.1 :: e.2) ++ .closeRecord :: after) := by
  simp [ofRecord]

/-- Calls for one whole value. -/
inductive Complete : List SerialCall → Prop
  | null : Complete [.null]
  | bool (b : Bool) : Complete [.bool b]
  | whole (i : Int) : Complete [.whole i]
  | real (n : Number) : Complete [.real n]
  | text (s : String) : Complete [.text s]
  | list {items : List (List SerialCall)} (h : ∀ cs ∈ items, Complete cs) : Complete (ofList items)
  | record {entries : List (String × List SerialCall)} (h : ∀ e ∈ entries, Complete e.2) :
      Complete (ofRecord entries)

/-! ## Formatters -/

/-- The control characters that are escaped by a letter. -/
def lettered : List (Char × Char) :=
  [('\n', 'n'), ('\r', 'r'), ('\t', 't'), ('\x08', 'b'), ('\x0c', 'f')]

/-- The escapes of characters inside quotes. -/
structure Escapes (escape : Char → List Char) : Prop where
  mark : escape '"' = ['\\', '"']
  backslash : escape '\\' = ['\\', '\\']
  letter : ∀ p ∈ lettered, escape p.1 = ['\\', p.2]
  control : ∀ c : Char, c.toNat < 32 → (∀ p ∈ lettered, c ≠ p.1) →
    escape c = ['\\', 'u', '0', '0', Nat.digitChar (c.toNat / 16), Nat.digitChar (c.toNat % 16)]
  other : ∀ c : Char, 32 ≤ c.toNat → c ≠ '"' → c ≠ '\\' → escape c = [c]

/-- A text in quotes. -/
def quote (escape : Char → List Char) (s : String) : List Char :=
  '"' :: s.toList.flatMap escape ++ ['"']

/-- What a compact formatter writes for the calls of one whole value, with these escapes. -/
structure IsCompact (write : List SerialCall → List Char) (escape : Char → List Char) : Prop
    extends Escapes escape where
  null : write [.null] = "null".toList
  bool : ∀ b, write [.bool b] = (if b then "true" else "false").toList
  whole : ∀ i : Int, i.natAbs < Nat.pow 2 63 → write [.whole i] = (toString i).toList
  real : ∀ n : Number, n.isFinite = false → write [.real n] = "null".toList
  text : ∀ s, write [.text s] = quote escape s
  list : ∀ items, (∀ cs ∈ items, Complete cs) →
    write (ofList items) = '[' :: [','].intercalate (items.map write) ++ [']']
  record : ∀ entries : List (String × List SerialCall), (∀ e ∈ entries, Complete e.2) →
    write (ofRecord entries) =
      '\x7b' :: [','].intercalate (entries.map fun e => quote escape e.1 ++ ':' :: write e.2) ++
        ['\x7d']

/-! ## Escapes -/

/-- What holds of every code below a bound holds of every character below it. -/
theorem forall_char_lt {bound : Nat} {P : Char → Prop} (h : ∀ n < bound, P (Char.ofNat n))
    (c : Char) (hc : c.toNat < bound) : P c := by
  have hp := h c.toNat hc
  rwa [Char.ofNat_toNat] at hp

theorem hexDigit_eq {n : Nat} (h : n < 16) : JsonStyle.hexDigit n = Nat.digitChar n := by
  revert n
  decide

section Escaped

variable {escape : Char → List Char} (he : Escapes escape) {style : JsonStyle} {c : Char}
include he

/-- A style escapes a character as the formatter does if both give it the same letter, or none. -/
theorem Escapes.eq_of_lookup_eq (h : style.letters.lookup c = lettered.lookup c) :
    style.escape c = escape c := by
  rw [JsonStyle.escape, h]
  split
  next hmark => rw [hmark, he.mark]
  next hmark =>
    split
    next hbackslash => rw [hbackslash, he.backslash]
    next hbackslash =>
      split
      next l hl =>
        obtain ⟨_, _, htable, -⟩ := List.lookup_eq_some_iff.mp hl
        rw [he.letter (c, l) (by rw [htable]; simp)]
      next hnone =>
        split
        next hlow =>
          have hplain : ∀ p ∈ lettered, c ≠ p.1 := by
            simpa using List.lookup_eq_none_iff.mp hnone
          rw [he.control c hlow hplain, hexDigit_eq (by omega),
            hexDigit_eq (Nat.mod_lt _ (by decide))]
        next hhigh => rw [he.other c (Nat.not_lt.mp hhigh) hmark hbackslash]

theorem Escapes.json_eq (c : Char) : JsonStyle.json.escape c = escape c := he.eq_of_lookup_eq rfl

theorem Escapes.display_eq (hb : c ≠ '\x08') (hf : c ≠ '\x0c') :
    JsonStyle.display.escape c = escape c := by
  refine he.eq_of_lookup_eq ?_
  have hnone : List.lookup c [('\x08', 'b'), ('\x0c', 'f')] = none :=
    List.lookup_eq_none_iff.mpr (by simp [hb, hf])
  have hsplit : lettered = JsonStyle.display.letters ++ [('\x08', 'b'), ('\x0c', 'f')] := rfl
  rw [hsplit, List.lookup_append, hnone, Option.or_none]

end Escaped

/-- Texts are quoted alike where their characters are escaped alike. -/
theorem quote_eq {escape : Char → List Char} {style : JsonStyle} {s : String}
    (h : ∀ c ∈ s.toList, style.escape c = escape c) : style.quote s = quote escape s := by
  simp only [JsonStyle.quote, quote, List.flatMap_def, List.map_congr_left h]

end SerialCall

/-! ## Rows of members -/

/-- Texts between commas: the first as it is, and each later one behind a comma. -/
theorem intercalate_comma_cons (t : List Char) (ts : List (List Char)) :
    [','].intercalate (t :: ts) = t ++ ts.flatMap (',' :: ·) := by
  induction ts generalizing t with
  | nil => rw [List.intercalate_singleton, List.flatMap_nil, List.append_nil]
  | cons u us ih =>
    rw [List.intercalate_cons_cons, ih u, List.flatMap_cons, List.append_assoc]
    rfl

namespace Value

/-- An entry as the calls for it. -/
def entryCalls (e : String × Value) : String × List SerialCall := (e.1, e.2.calls [])

mutual

/-- Later calls do not change those for a value. -/
theorem calls_append (v : Value) (after : List SerialCall) :
    v.calls after = v.calls [] ++ after := by
  cases v with
  | number n =>
    rw [calls, calls]
    split <;> rfl
  | list items => rw [calls, calls, callsOfItems_eq items, callsOfItems_eq items [.closeList]]; simp
  | record entries =>
    rw [calls, calls, callsOfEntries_eq entries, callsOfEntries_eq entries [.closeRecord]]; simp
  | _ => rfl

theorem callsOfItems_eq (vs : List Value) (after : List SerialCall) :
    callsOfItems vs after = (vs.map (calls · [])).flatMap (.element :: ·) ++ after := by
  cases vs with
  | nil => rfl
  | cons v rest =>
    rw [callsOfItems, calls_append v, callsOfItems_eq rest, List.map_cons, List.flatMap_cons]
    simp

theorem callsOfEntries_eq (es : List (String × Value)) (after : List SerialCall) :
    callsOfEntries es after
      = (es.map entryCalls).flatMap (fun e => .key e.1 :: e.2) ++ after := by
  cases es with
  | nil => rfl
  | cons e rest =>
    obtain ⟨k, v⟩ := e
    rw [callsOfEntries, calls_append v, callsOfEntries_eq rest, List.map_cons, List.flatMap_cons]
    simp [entryCalls]

end

theorem calls_list (vs : List Value) :
    (list vs).calls [] = SerialCall.ofList (vs.map (calls · [])) := by
  rw [calls, callsOfItems_eq]
  rfl

theorem calls_record (es : List (String × Value)) :
    (record es).calls [] = SerialCall.ofRecord (es.map entryCalls) := by
  rw [calls, callsOfEntries_eq]
  rfl

mutual

/-- The calls for a value are those for one whole value. -/
theorem complete_calls (v : Value) : SerialCall.Complete (v.calls []) := by
  cases v with
  | null => exact .null
  | bool b => exact .bool b
  | number n =>
    rw [calls]
    split
    · exact .whole _
    · exact .real n
  | text s => exact .text s
  | list items =>
    rw [calls_list]
    exact .list (complete_callsOfItems items)
  | record entries =>
    rw [calls_record]
    exact .record (complete_callsOfEntries entries)

theorem complete_callsOfItems (vs : List Value) :
    ∀ cs ∈ vs.map (calls · []), SerialCall.Complete cs := by
  cases vs with
  | nil => exact List.forall_mem_nil _
  | cons v rest => exact List.forall_mem_cons.mpr ⟨complete_calls v, complete_callsOfItems rest⟩

theorem complete_callsOfEntries (es : List (String × Value)) :
    ∀ e ∈ es.map entryCalls, SerialCall.Complete e.2 := by
  cases es with
  | nil => exact List.forall_mem_nil _
  | cons e rest =>
    obtain ⟨k, v⟩ := e
    exact List.forall_mem_cons.mpr ⟨complete_calls v, complete_callsOfEntries rest⟩

end

/-- An entry as a style writes it. -/
def entryText (style : JsonStyle) (e : String × Value) : List Char :=
  style.quote e.1 ++ ':' :: e.2.compact style []

theorem compact_eq_append (style : JsonStyle) (v : Value) (after : List Char) :
    v.compact style after = v.compact style [] ++ after := compact_append style v [] after

theorem compactItems_false (style : JsonStyle) (vs : List Value) (after : List Char) :
    compactItems style false vs after
      = (vs.map (compact style · [])).flatMap (',' :: ·) ++ after := by
  induction vs with
  | nil => rfl
  | cons v rest ih =>
    rw [compactItems, compact_eq_append, ih, List.map_cons, List.flatMap_cons, List.append_assoc]
    rfl

theorem compactEntries_false (style : JsonStyle) (es : List (String × Value)) (after : List Char) :
    compactEntries style false es after
      = (es.map (entryText style)).flatMap (',' :: ·) ++ after := by
  induction es with
  | nil => rfl
  | cons e rest ih =>
    obtain ⟨k, v⟩ := e
    rw [compactEntries, compact_eq_append, ih, List.map_cons, List.flatMap_cons]
    simp [comma, entryText]

/-- The text of a list: its elements between commas, in brackets. -/
theorem compact_list (style : JsonStyle) (vs : List Value) : (list vs).compact style []
    = '[' :: [','].intercalate (vs.map (compact style · [])) ++ [']'] := by
  rw [compact]
  cases vs with
  | nil => rfl
  | cons v rest =>
    rw [compactItems, compact_eq_append, compactItems_false, List.map_cons, intercalate_comma_cons]
    simp [comma]

/-- The text of a record: its entries between commas, in braces. -/
theorem compact_record (style : JsonStyle) (es : List (String × Value)) :
    (record es).compact style []
      = '\x7b' :: [','].intercalate (es.map (entryText style)) ++ ['\x7d'] := by
  rw [compact]
  cases es with
  | nil => rfl
  | cons e rest =>
    obtain ⟨k, v⟩ := e
    rw [compactEntries, compact_eq_append, compactEntries_false, List.map_cons,
      intercalate_comma_cons]
    simp [comma, entryText]

end Value

/-! ## What the formatter writes for a value -/

namespace Value

mutual

/-- Every number in a value satisfies `P`, and every text and every key in it `Q`. -/
def Each (P : Number → Prop) (Q : String → Prop) : Value → Prop
  | .null | .bool _ => True
  | .number n => P n
  | .text s => Q s
  | .list items => EachItem P Q items
  | .record entries => EachEntry P Q entries

/-- Each element of a list is a value of this kind. -/
def EachItem (P : Number → Prop) (Q : String → Prop) : List Value → Prop
  | [] => True
  | v :: rest => Each P Q v ∧ EachItem P Q rest

/-- Each entry of a record has a key and a value of this kind. -/
def EachEntry (P : Number → Prop) (Q : String → Prop) : List (String × Value) → Prop
  | [] => True
  | (k, v) :: rest => Q k ∧ Each P Q v ∧ EachEntry P Q rest

end

mutual

theorem each_of_forall {P : Number → Prop} {Q : String → Prop} (hP : ∀ n, P n) (hQ : ∀ s, Q s)
    (v : Value) : v.Each P Q := by
  cases v with
  | number n => exact hP n
  | text s => exact hQ s
  | list items => exact eachItem_of_forall hP hQ items
  | record entries => exact eachEntry_of_forall hP hQ entries
  | _ => trivial

theorem eachItem_of_forall {P : Number → Prop} {Q : String → Prop} (hP : ∀ n, P n)
    (hQ : ∀ s, Q s) (vs : List Value) : EachItem P Q vs := by
  cases vs with
  | nil => trivial
  | cons v rest => exact ⟨each_of_forall hP hQ v, eachItem_of_forall hP hQ rest⟩

theorem eachEntry_of_forall {P : Number → Prop} {Q : String → Prop} (hP : ∀ n, P n)
    (hQ : ∀ s, Q s) (es : List (String × Value)) : EachEntry P Q es := by
  cases es with
  | nil => trivial
  | cons e rest =>
    obtain ⟨k, v⟩ := e
    exact ⟨hQ k, each_of_forall hP hQ v, eachEntry_of_forall hP hQ rest⟩

end

open SerialCall (IsCompact quote)

theorem toList_toString (i : Int) : (toString i).toList = Number.integerText i := by
  cases i with
  | ofNat n => exact Nat.toList_repr
  | negSucc n =>
    have hneg : Int.negSucc n < 0 := Int.negSucc_lt_zero n
    rw [Number.integerText, if_pos hneg]
    exact (String.toList_append ..).trans (congrArg ('-' :: ·) Nat.toList_repr)

/-- A style writes the numbers of `P` and the texts of `Q` as the formatter does. -/
structure Alike (style : JsonStyle) (write : List SerialCall → List Char)
    (escape : Char → List Char) (P : Number → Prop) (Q : String → Prop) : Prop where
  number : ∀ n, P n → n.short? = none → n.dataText style.layout = write [.real n]
  quote : ∀ s, Q s → style.quote s = quote escape s

section Written

variable {write : List SerialCall → List Char} {escape : Char → List Char} {style : JsonStyle}
  {P : Number → Prop} {Q : String → Prop}

theorem dataText_eq_write (hwrite : IsCompact write escape) {n : Number} {i : Int}
    (h : n.short? = some i) (l : Layout) : n.dataText l = write [.whole i] := by
  obtain ⟨-, hshort⟩ := Option.filter_eq_some_iff.mp h
  have hlt : i.natAbs < Nat.pow 10 15 := of_decide_eq_true hshort
  rw [Number.dataText_of_short h, hwrite.whole i (Nat.lt_trans hlt (by decide)),
    toList_toString]

mutual

/-- The formatter writes the text of a value if it writes its numbers and texts alike. -/
theorem compact_eq_write (hwrite : IsCompact write escape) (ha : Alike style write escape P Q)
    (v : Value) (h : v.Each P Q) : v.compact style [] = write (v.calls []) := by
  cases v with
  | null => exact hwrite.null.symm
  | bool b => exact (List.append_nil _).trans (hwrite.bool b).symm
  | number n =>
    rw [compact, calls, List.append_nil]
    cases hshort : n.short? with
    | some i => exact dataText_eq_write hwrite hshort _
    | none => exact ha.number n h hshort
  | text s => rw [compact, calls, List.append_nil, ha.quote s h, hwrite.text]
  | list items =>
    rw [compact_list, calls_list, hwrite.list _ (complete_callsOfItems items), List.map_map,
      List.map_congr_left (compactItems_eq_write hwrite ha items h)]
    rfl
  | record entries =>
    rw [compact_record, calls_record, hwrite.record _ (complete_callsOfEntries entries),
      List.map_map, List.map_congr_left (compactEntries_eq_write hwrite ha entries h)]
    rfl

theorem compactItems_eq_write (hwrite : IsCompact write escape)
    (ha : Alike style write escape P Q) (vs : List Value) (h : EachItem P Q vs) :
    ∀ v ∈ vs, v.compact style [] = write (v.calls []) := by
  cases vs with
  | nil => exact List.forall_mem_nil _
  | cons v rest =>
    exact List.forall_mem_cons.mpr
      ⟨compact_eq_write hwrite ha v h.1, compactItems_eq_write hwrite ha rest h.2⟩

theorem compactEntries_eq_write (hwrite : IsCompact write escape)
    (ha : Alike style write escape P Q) (es : List (String × Value)) (h : EachEntry P Q es) :
    ∀ e ∈ es, entryText style e = quote escape e.1 ++ ':' :: write (e.2.calls []) := by
  cases es with
  | nil => exact List.forall_mem_nil _
  | cons e rest =>
    obtain ⟨k, v⟩ := e
    refine List.forall_mem_cons.mpr ⟨?_, compactEntries_eq_write hwrite ha rest h.2.2⟩
    rw [entryText, ha.quote k h.1, compact_eq_write hwrite ha v h.2.1]

end

end Written

end Value

/-! ## A formatter -/

namespace SerialCall

/-- How the control characters are escaped, in the order of their codes: the letter, or `u` for
the code itself. -/
def controls : List Char := "uuuuuuuubtnufruuuuuuuuuuuuuuuuuu".toList

def hexDigits : List Char := "0123456789abcdef".toList

/-- A character inside quotes, by the table. -/
def escapeByTable (c : Char) : List Char :=
  if c = '"' ∨ c = '\\' then ['\\', c]
  else
    match controls[c.toNat]? with
    | none => [c]
    | some letter =>
      if letter = 'u' then
        ['\\', 'u', '0', '0', hexDigits[c.toNat / 16]!, hexDigits[c.toNat % 16]!]
      else ['\\', letter]

/-- Whether a member of a container has been written. -/
inductive Stage where
  | first
  | rest

/-- What stands in front of the next member. -/
def Stage.separator : Stage → List Char
  | first => []
  | rest => [',']

/-- A number as the formatter lays it out. -/
def realText : Number → List Char
  | .finite negative size => Layout.scientific.render negative size
  | .nan | .infinite _ => "null".toList

/-- The text for calls, with the stages of the open containers from the innermost on. -/
def print : List Stage → List SerialCall → List Char
  | _, [] => []
  | st, .null :: after => "null".toList ++ print st after
  | st, .bool b :: after => (if b then "true" else "false").toList ++ print st after
  | st, .whole i :: after => (toString i).toList ++ print st after
  | st, .real n :: after => realText n ++ print st after
  | st, .text s :: after => quote escapeByTable s ++ print st after
  | st, .openList :: after => '[' :: print (.first :: st) after
  | st, .element :: after => (st.headD .first).separator ++ print (.rest :: st.tail) after
  | st, .closeList :: after => ']' :: print st.tail after
  | st, .openRecord :: after => '\x7b' :: print (.first :: st) after
  | st, .key k :: after =>
    (st.headD .first).separator ++ quote escapeByTable k ++ ':' :: print (.rest :: st.tail) after
  | st, .closeRecord :: after => '\x7d' :: print st.tail after

theorem escapes_escapeByTable : Escapes escapeByTable where
  mark := rfl
  backslash := rfl
  letter := by decide
  control := forall_char_lt (P := fun c => (∀ p ∈ lettered, c ≠ p.1) → escapeByTable c
    = ['\\', 'u', '0', '0', Nat.digitChar (c.toNat / 16), Nat.digitChar (c.toNat % 16)]) (by decide)
  other c hc hmark hbackslash := by
    have hcontrol : controls[c.toNat]? = none :=
      List.getElem?_eq_none ((by decide : controls.length = 32) ▸ hc)
    rw [escapeByTable, if_neg (not_or.mpr ⟨hmark, hbackslash⟩), hcontrol]

/-- Whether going over calls, with others behind, writes what these alone write and leaves the
stages as they were. -/
def Passes (cs : List SerialCall) : Prop :=
  ∀ st after, print st (cs ++ after) = print [] cs ++ print st after

section Members

/- The members of a container: each has a mark in front of the calls for its value, which writes a
label behind the separator. What comes after them does not depend on whether there were any. -/
variable {β : Type} {mark : β → SerialCall} {label : β → List Char} {value : β → List SerialCall}
  (hmark : ∀ x st after, print st (mark x :: after)
    = (st.headD .first).separator ++ label x ++ print (.rest :: st.tail) after)
  {st : List Stage} {after : List SerialCall} {text : List Char}
  (hafter : ∀ stage, print (stage :: st) after = text)
include hmark hafter

theorem print_later {members : List β} (h : ∀ x ∈ members, Passes (value x)) :
    print (.rest :: st) (members.flatMap (fun x => mark x :: value x) ++ after)
      = (members.map fun x => label x ++ print [] (value x)).flatMap (',' :: ·) ++ text := by
  induction members with
  | nil => exact hafter .rest
  | cons x members ih =>
    obtain ⟨hx, hmembers⟩ := List.forall_mem_cons.mp h
    rw [List.flatMap_cons, List.append_assoc, List.cons_append, hmark, hx, List.tail_cons,
      ih hmembers, List.map_cons, List.flatMap_cons]
    simp [Stage.separator]

theorem print_members {members : List β} (h : ∀ x ∈ members, Passes (value x)) :
    print (.first :: st) (members.flatMap (fun x => mark x :: value x) ++ after)
      = [','].intercalate (members.map fun x => label x ++ print [] (value x)) ++ text := by
  cases members with
  | nil => exact hafter .first
  | cons x members =>
    obtain ⟨hx, hmembers⟩ := List.forall_mem_cons.mp h
    rw [List.flatMap_cons, List.append_assoc, List.cons_append, hmark, hx, List.tail_cons,
      print_later hmark hafter hmembers, List.map_cons, intercalate_comma_cons]
    simp [Stage.separator]

end Members

theorem print_ofList {items : List (List SerialCall)} (h : ∀ cs ∈ items, Passes cs)
    (st : List Stage) (after : List SerialCall) : print st (ofList items ++ after)
      = '[' :: [','].intercalate (items.map (print [])) ++ ']' :: print st after := by
  have hmark (cs : List SerialCall) (st : List Stage) (after : List SerialCall) :
      print st (.element :: after)
        = (st.headD .first).separator ++ [] ++ print (.rest :: st.tail) after := by
    rw [print, List.append_nil]
  have hafter (stage : Stage) :
      print (stage :: st) (.closeList :: after) = ']' :: print st after := rfl
  rw [ofList_append, print]
  exact congrArg ('[' :: ·) (print_members hmark hafter h)

theorem print_ofRecord {entries : List (String × List SerialCall)} (h : ∀ e ∈ entries, Passes e.2)
    (st : List Stage) (after : List SerialCall) : print st (ofRecord entries ++ after)
      = '\x7b' :: [','].intercalate
          (entries.map fun e => quote escapeByTable e.1 ++ ':' :: print [] e.2) ++
        '\x7d' :: print st after := by
  have hmark (e : String × List SerialCall) (st : List Stage) (after : List SerialCall) :
      print st (.key e.1 :: after) = (st.headD .first).separator ++
        (quote escapeByTable e.1 ++ [':']) ++ print (.rest :: st.tail) after := by
    rw [print]
    simp
  have hafter (stage : Stage) :
      print (stage :: st) (.closeRecord :: after) = '\x7d' :: print st after := rfl
  have hmembers := print_members hmark hafter h
  simp only [List.append_assoc, List.singleton_append] at hmembers
  rw [ofRecord_append, print]
  exact congrArg ('\x7b' :: ·) hmembers

/-- The calls for a whole value are passed: what is opened there is closed there. -/
theorem Complete.passes {cs : List SerialCall} (h : Complete cs) : Passes cs := by
  induction h with
  | list h ih =>
    intro st after
    rw [print_ofList ih, ← List.append_nil (ofList _), print_ofList ih]
    simp [print]
  | record h ih =>
    intro st after
    rw [print_ofRecord ih, ← List.append_nil (ofRecord _), print_ofRecord ih]
    simp [print]
  | _ => exact fun st after => by simp [print]

theorem realText_of_not_finite {n : Number} (h : n.isFinite = false) :
    realText n = "null".toList := by
  cases n with
  | finite negative size => exact absurd h (by simp [Number.isFinite])
  | nan => rfl
  | infinite negative => rfl

theorem print_real {n : Number} (h : n.short? = none) :
    print [] [.real n] = n.dataText .scientific := by
  rw [print, print, List.append_nil]
  cases n with
  | finite negative size => exact (Number.dataText_of_long h _).symm
  | nan => rfl
  | infinite negative => rfl

/-- What is printed for calls is what a compact formatter writes for them. -/
theorem isCompact_print : IsCompact (print []) escapeByTable where
  toEscapes := escapes_escapeByTable
  null := rfl
  bool b := List.append_nil _
  whole i _ := List.append_nil _
  real n hn := (List.append_nil _).trans (realText_of_not_finite hn)
  text s := List.append_nil _
  list items h := by
    rw [← List.append_nil (ofList items), print_ofList fun cs hcs => (h cs hcs).passes]
    rfl
  record entries h := by
    rw [← List.append_nil (ofRecord entries), print_ofRecord fun e he => (h e he).passes]
    rfl

end SerialCall

/-! ## The two texts of a value -/

namespace Value

open SerialCall (IsCompact print escapeByTable isCompact_print print_real)

section Texts

variable {write : List SerialCall → List Char} {escape : Char → List Char}

theorem json_eq_write (hwrite : IsCompact write escape)
    (hreal : ∀ n : Number, n.short? = none → write [.real n] = n.dataText .scientific) (v : Value) :
    v.compact .json [] = write (v.calls []) := by
  have halike : Alike .json write escape (fun _ => True) (fun _ => True) :=
    ⟨fun n _ hn => (hreal n hn).symm,
      fun s _ => SerialCall.quote_eq fun c _ => hwrite.toEscapes.json_eq c⟩
  exact compact_eq_write hwrite halike v
    (each_of_forall (fun _ => trivial) (fun _ => trivial) v)

/-- The text for exchange is what a formatter writes that lays out numbers as this text does. -/
theorem json_eq_serialized (hwrite : IsCompact write escape)
    (hreal : ∀ n : Number, n.short? = none → write [.real n] = n.dataText .scientific) (v : Value) :
    v.json = String.ofList (write (v.calls [])) :=
  congrArg String.ofList (json_eq_write hwrite hreal v)

/-- A number that is not finite, or whole and short of `10^15`. -/
def IsShortOrNull (n : Number) : Prop :=
  n.isFinite = false ∨ ∃ i, n.whole? = some i ∧ i.natAbs < Nat.pow 10 15

/-- A text without a backspace and without a form feed. -/
def IsQuotedAlike (s : String) : Prop := '\x08' ∉ s.toList ∧ '\x0c' ∉ s.toList

instance (s : String) : Decidable (IsQuotedAlike s) := inferInstanceAs (Decidable (_ ∧ _))

theorem display_alike (hwrite : IsCompact write escape) :
    Alike .display write escape IsShortOrNull IsQuotedAlike where
  number n hn hshort := by
    rcases hn with hn | ⟨i, hi, hlt⟩
    · rw [Number.dataText_of_not_finite hn, hwrite.real n hn]
    · rw [Number.short?, hi, Option.filter_some_pos (by simpa using hlt)] at hshort
      cases hshort
  quote s hs := SerialCall.quote_eq fun c hc => hwrite.toEscapes.display_eq
    (fun h => hs.1 (h ▸ hc)) (fun h => hs.2 (h ▸ hc))

/-- Where numbers are short integers or not finite, and texts and keys hold neither a backspace nor
a form feed, the text in messages is the text for exchange. -/
theorem display_eq_json {v : Value} (hv : v.Each IsShortOrNull IsQuotedAlike) :
    v.display = v.json := by
  have hdisplay := compact_eq_write isCompact_print (display_alike isCompact_print) v hv
  have hjson := json_eq_write isCompact_print (fun n hn => print_real hn) v
  exact congrArg String.ofList (hdisplay.trans hjson.symm)

/-- On such a value the text in messages is what a compact formatter writes for its calls, however
it lays out other numbers. -/
theorem display_eq_serialized (hwrite : IsCompact write escape) {v : Value}
    (hv : v.Each IsShortOrNull IsQuotedAlike) : v.display = String.ofList (write (v.calls [])) :=
  congrArg String.ofList (compact_eq_write hwrite (display_alike hwrite) v hv)

end Texts

/-- A value with a quotation mark, a line break and a control character in its keys, an integer,
negative zero, what is not a number, and empty containers. -/
def nested : Value :=
  .record [("\"\n", .list [.number (.ofInt (-7)), .number (.ofRatio true 0 1), .number .nan]),
    ("\x01", .record [("", .text "\\"), ("a", .list []), ("b", .record [])])]

/-- What the formatter above writes for this value is its text in messages. -/
theorem display_eq_serialized_nested :
    IsCompact (print []) escapeByTable ∧ nested.Each IsShortOrNull IsQuotedAlike ∧
      nested.display = String.ofList (print [] (nested.calls [])) ∧
      String.ofList (print [] (nested.calls [])) = "\x7b\"\\\"\\n\":[-7,0,null],"
        ++ "\"\\u0001\":\x7b\"\":\"\\\\\",\"a\":[],\"b\":\x7b\x7d\x7d\x7d" := by
  have hseven : IsShortOrNull (.ofInt (-7)) := .inr ⟨-7, by decide +kernel, by decide⟩
  have hzero : IsShortOrNull (.ofRatio true 0 1) := .inr ⟨0, by decide +kernel, by decide⟩
  have hlist : EachItem IsShortOrNull IsQuotedAlike
      [.number (.ofInt (-7)), .number (.ofRatio true 0 1), .number .nan] :=
    ⟨hseven, hzero, .inl rfl, trivial⟩
  have hrecord : EachEntry IsShortOrNull IsQuotedAlike
      [("", .text "\\"), ("a", .list []), ("b", .record [])] :=
    ⟨by decide, (by decide : IsQuotedAlike "\\"), by decide, trivial, by decide, trivial, trivial⟩
  have heach : nested.Each IsShortOrNull IsQuotedAlike :=
    ⟨by decide, hlist, by decide, hrecord, trivial⟩
  exact ⟨isCompact_print, heach, display_eq_serialized isCompact_print heach, by decide +kernel⟩

end Value

end ReactiveView
