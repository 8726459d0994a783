import ReactiveView.Entries
/-!
# Markup fragments

The trees that markup stands for: elements with attributes and children, texts and comments.
-/
namespace ReactiveView

/-- A piece of markup. -/
inductive Fragment where
  | element (tag : String) (attributes : List (String × String)) (children : List Fragment)
  | text (s : String)
  | comment (s : String)
  deriving Repr

namespace Fragment

mutual

/-- Equality of fragments is decided part by part. -/
def decEq : (a b : Fragment) → Decidable (a = b)
  | .text s, .text t => if h : s = t then .isTrue (h ▸ rfl) else .isFalse fun e => h (by cases e; rfl)
  | .comment s, .comment t =>
    if h : s = t then .isTrue (h ▸ rfl) else .isFalse fun e => h (by cases e; rfl)
  | .element t as cs, .element t' as' cs' =>
    if h : t = t' ∧ as = as' then
      match decEqAll cs cs' with
      | .isTrue h' => .isTrue (by obtain ⟨rfl, rfl⟩ := h; rw [h'])
      | .isFalse h' => .isFalse fun e => h' (by cases e; rfl)
    else .isFalse fun e => h (by cases e; exact ⟨rfl, rfl⟩)
  | .text _, .comment _ => .isFalse nofun
  | .text _, .element .. => .isFalse nofun
  | .comment _, .text _ => .isFalse nofun
  | .comment _, .element .. => .isFalse nofun
  | .element .., .text _ => .isFalse nofun
  | .element .., .comment _ => .isFalse nofun

/-- Equality of lists of fragments. -/
def decEqAll : (as bs : List Fragment) → Decidable (as = bs)
  | [], [] => .isTrue rfl
  | [], _ :: _ => .isFalse nofun
  | _ :: _, [] => .isFalse nofun
  | a :: as, b :: bs =>
    match decEq a b with
    | .isFalse h => .isFalse fun e => h (by cases e; rfl)
    | .isTrue h =>
      match decEqAll as bs with
      | .isTrue h' => .isTrue (by rw [h, h'])
      | .isFalse h' => .isFalse fun e => h' (by cases e; rfl)

end

instance : DecidableEq Fragment := decEq

/-- The elements that have neither children nor a closing tag: breaks, pictures and sound, fields,
columns, and what the head of a page refers to. -/
def voidTags : List String :=
  ["br", "hr", "wbr",
    "img", "area", "embed", "source", "track",
    "input", "col",
    "base", "link", "meta"]

/-- Whether elements of a tag are void. -/
def isVoid (tag : String) : Bool := voidTags.contains tag

end Fragment

end ReactiveView
