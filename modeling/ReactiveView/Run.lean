import ReactiveView.Error
/-!
# Runs

A run is a computation on a state that ends in one of three ways: it is done with an answer, it has
failed with an error, or its depth is used up. The first two leave a state behind, so what a run
did before it failed stays done. The third is no answer at all: it only says that the run was not
given enough depth to end.
-/
namespace ReactiveView

/-- How a run ends. -/
inductive Outcome (S α : Type) where
  | done (answer : α) (state : S)
  | failed (error : Error) (state : S)
  | exhausted

/-- A computation of `α` on a state. -/
def Run (S α : Type) := S → Outcome S α

namespace Run

variable {S T α β : Type}

/-- The run that answers at once. -/
def done (a : α) : Run S α := fun s => .done a s

/-- One run after another, with the answer of the first. -/
def andThen (x : Run S α) (f : α → Run S β) : Run S β := fun s =>
  match x s with
  | .done a s => f a s
  | .failed e s => .failed e s
  | .exhausted => .exhausted

instance : Monad (Run S) where
  pure := done
  bind := andThen

/-- The run that fails at once. -/
def fail (e : Error) : Run S α := fun s => .failed e s

/-- The run whose depth is used up. -/
def exhausted : Run S α := fun _ => .exhausted

/-- A look at the state. -/
def look (f : S → α) : Run S α := fun s => .done (f s) s

/-- A change of the state. -/
def change (f : S → S) : Run S Unit := fun s => .done () (f s)

/-- A result that is already there. -/
def ofExcept : Except Error α → Run S α
  | .ok a => done a
  | .error e => fail e

/-- The run with its failure as an answer. -/
def attempt (x : Run S α) : Run S (Except Error α) := fun s =>
  match x s with
  | .done a s => .done (.ok a) s
  | .failed e s => .done (.error e) s
  | .exhausted => .exhausted

/-- A run on a part of the state. -/
def onPart (get : S → T) (put : T → S → S) (x : Run T α) : Run S α := fun s =>
  match x (get s) with
  | .done a t => .done a (put t s)
  | .failed e t => .failed e (put t s)
  | .exhausted => .exhausted

/-- An edit of a part of the state: it answers or fails, and leaves the part as it says. -/
def edit (get : S → T) (put : T → S → S) (f : T → Except Error α × T) : Run S α := fun s =>
  match f (get s) with
  | (.ok a, t) => .done a (put t s)
  | (.error e, t) => .failed e (put t s)

theorem andThen_done (x : Run S α) : andThen x (fun a => done a) = x := by
  funext s
  unfold andThen
  cases x s <;> rfl

theorem andThen_assoc {γ : Type} (x : Run S α) (f : α → Run S β) (g : β → Run S γ) :
    andThen (andThen x f) g = andThen x fun a => andThen (f a) g := by
  funext s
  unfold andThen
  cases x s <;> rfl

instance : LawfulMonad (Run S) :=
  LawfulMonad.mk' _ (fun x => andThen_done x) (fun _ _ => rfl) (fun x f g => andThen_assoc x f g)

end Run

end ReactiveView
