/-!
# Blank characters

The characters with the property White_Space, and what they cut: skipping, trimming, words.

Results:
* `skipBlank_eq_nil_iff`: nothing follows the leading blanks exactly when a text is blank throughout.
* `not_isBlank_of_skipBlank`: what follows them starts with another character.
-/
namespace ReactiveView.Text

/-- The characters with the property White_Space. Zero-width spaces are not among them. -/
def isBlank (c : Char) : Bool :=
  let n := c.toNat
  (0x09 ≤ n && n ≤ 0x0D) || n == 0x20 || n == 0x85 || n == 0xA0 || n == 0x1680 ||
    (0x2000 ≤ n && n ≤ 0x200A) || n == 0x2028 || n == 0x2029 || n == 0x202F || n == 0x205F ||
    n == 0x3000

/-- What follows the leading blanks. -/
def skipBlank (cs : List Char) : List Char := cs.dropWhile isBlank

/-- The text without its trailing blanks. -/
def trimRight (cs : List Char) : List Char := (cs.reverse.dropWhile isBlank).reverse

/-- The text without the blanks around it. -/
def trim (cs : List Char) : List Char := trimRight (skipBlank cs)

/-- The string without the blanks around it. -/
def trimmed (s : String) : String := String.ofList (trim s.toList)

/-- The maximal runs of characters that are not blank. -/
def words (cs : List Char) : List (List Char) :=
  (cs.splitOnP isBlank).filter fun w => !w.isEmpty

theorem length_dropWhile_le (p : Char → Bool) (cs : List Char) :
    (cs.dropWhile p).length ≤ cs.length := (List.dropWhile_sublist p).length_le

theorem length_skipBlank_le (cs : List Char) : (skipBlank cs).length ≤ cs.length :=
  length_dropWhile_le _ _

theorem skipBlank_eq_nil_iff (cs : List Char) : skipBlank cs = [] ↔ ∀ c ∈ cs, isBlank c := by
  induction cs with
  | nil => simp [skipBlank]
  | cons c cs ih => by_cases h : isBlank c <;> simp_all [skipBlank, List.dropWhile]

/-- Blanks are skipped to the end: what is left starts with another character. -/
theorem not_isBlank_of_skipBlank {cs rest : List Char} {c : Char} (h : skipBlank cs = c :: rest) :
    isBlank c = false := by
  unfold skipBlank at h
  have hne : cs.dropWhile isBlank ≠ [] := by simp [h]
  simpa [h] using List.head_dropWhile_not isBlank hne

end ReactiveView.Text
