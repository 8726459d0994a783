import Mathlib.Logic.Relation
import ReactiveView.Run
/-!
# Runs that track each other

`Tracks R x y s` compares two runs from a state and says where they lead: wherever `x` ends, `y`
ends in the same way, and steps of `R` lead from the start to the end. A run whose depth is used up
tracks everything. So tracking says at once that more depth changes nothing but exhaustion, and
that whatever each step of `R` keeps is kept by the whole run.

Results:
* `Tracks.bind`, `Tracks.forM`, `Tracks.attempt`, `Tracks.edit`: tracking goes through every way to
  put runs together.
* `bind_eq_done`, `bind_eq_failed`: how two runs in a row come to an end.
* `ends_bind`, `ends_forM`, `ends_attempt`, `ends_edit`: what runs keep, be it that they fail, is kept
  however they are put together.
-/
namespace ReactiveView

namespace Outcome

variable {S α : Type}

/-- Whether a run ended with an answer. -/
def isDone : Outcome S α → Bool
  | .done _ _ => true
  | _ => false

/-- The state in which a run ended with an answer, or else a given one. -/
def stateD (s : S) : Outcome S α → S
  | .done _ s' => s'
  | _ => s

theorem exists_eq_done {o : Outcome S α} (h : o.isDone) (s : S) :
    ∃ a, o = .done a (o.stateD s) := by
  cases o with
  | done a s' => exact ⟨a, rfl⟩
  | failed e s' => cases h
  | exhausted => cases h

theorem eq_done {o : Outcome S Unit} (h : o.isDone) (s : S) : o = .done () (o.stateD s) :=
  (exists_eq_done h s).choose_spec

theorem ne_exhausted {o : Outcome S α} (h : o.isDone) : o ≠ .exhausted := by
  rintro rfl
  cases h

/-- How a run ends: what holds if it is done, what if it fails, and what if its depth is used up. -/
def Ends (done failed : S → Prop) (exhausted : Prop) : Outcome S α → Prop
  | .done _ s => done s
  | .failed _ s => failed s
  | .exhausted => exhausted

theorem Ends.imp {done failed done' failed' : S → Prop} {exhausted exhausted' : Prop}
    {o : Outcome S α} (h : o.Ends done failed exhausted)
    (hdone : ∀ s, done s → done' s) (hfailed : ∀ s, failed s → failed' s)
    (hexhausted : exhausted → exhausted') : o.Ends done' failed' exhausted' := by
  cases o with
  | done a s => exact hdone s h
  | failed e s => exact hfailed s h
  | exhausted => exact hexhausted h

end Outcome

namespace Run

open Relation

variable {S T α β : Type} {R : S → S → Prop} {x y : Run S α} {s s' : S}

/-- Wherever `x` ends, `y` ends in the same way, after steps of `R`. -/
structure Tracks (R : S → S → Prop) (x y : Run S α) (s : S) : Prop where
  done : ∀ {a s'}, x s = .done a s' → y s = .done a s' ∧ ReflTransGen R s s'
  failed : ∀ {e s'}, x s = .failed e s' → y s = .failed e s' ∧ ReflTransGen R s s'

/-- A run that comes to an end is the run that it tracks. -/
theorem Tracks.eq_of_ne_exhausted {x y : Run S α} {s : S} (h : Tracks R x y s)
    (hx : x s ≠ .exhausted) : x s = y s := by
  cases hxs : x s with
  | done a s' => exact (h.done hxs).1.symm
  | failed e s' => exact (h.failed hxs).1.symm
  | exhausted => exact absurd hxs hx

/-! ## Single runs -/

theorem tracks_pure (a : α) : Tracks R (pure a : Run S α) (pure a) s where
  done h := by cases h; exact ⟨rfl, .refl⟩
  failed h := by cases h

theorem tracks_fail (e : Error) : Tracks R (fail e : Run S α) (fail e) s where
  done h := by cases h
  failed h := by cases h; exact ⟨rfl, .refl⟩

theorem tracks_exhausted (y : Run S α) : Tracks R exhausted y s where
  done h := by cases h
  failed h := by cases h

theorem tracks_look (f : S → α) : Tracks R (look f) (look f) s where
  done h := by cases h; exact ⟨rfl, .refl⟩
  failed h := by cases h

theorem tracks_ofExcept (r : Except Error α) :
    Tracks R (ofExcept r : Run S α) (ofExcept r) s := by
  cases r with
  | ok a => exact tracks_pure a
  | error e => exact tracks_fail e

theorem tracks_edit {get : S → T} {put : T → S → S} {f : T → Except Error α × T}
    (h : ∀ r t, f (get s) = (r, t) → ReflTransGen R s (put t s)) :
    Tracks R (edit get put f) (edit get put f) s where
  done hx := by
    refine ⟨hx, ?_⟩
    unfold edit at hx
    split at hx
    · next hf =>
      cases hx
      exact h _ _ hf
    · cases hx
  failed hx := by
    refine ⟨hx, ?_⟩
    unfold edit at hx
    split at hx
    · cases hx
    · next hf =>
      cases hx
      exact h _ _ hf

/-! ## Runs put together -/

theorem bind_eq (x : Run S α) (f : α → Run S β) : (x >>= f) = andThen x f := rfl

theorem bind_of_done {f : α → Run S β} {a : α} (h : x s = .done a s') : (x >>= f) s = f a s' := by
  rw [bind_eq, andThen, h]

theorem bind_of_failed {f : α → Run S β} {e : Error} (h : x s = .failed e s') :
    (x >>= f) s = .failed e s' := by
  rw [bind_eq, andThen, h]

theorem look_eq_done {f : S → α} {a : α} (h : look f s = .done a s') : f s = a ∧ s' = s := by
  unfold look at h
  injection h with ha hs
  exact ⟨ha, hs.symm⟩

theorem ofExcept_eq_done {r : Except Error α} {a : α} (h : ofExcept r s = .done a s') :
    r = .ok a ∧ s' = s := by
  cases r with
  | ok b =>
    cases h
    exact ⟨rfl, rfl⟩
  | error e => cases h

theorem edit_eq_done {get : S → T} {put : T → S → S} {f : T → Except Error α × T} {a : α}
    (h : edit get put f s = .done a s') : ∃ t, f (get s) = (.ok a, t) ∧ s' = put t s := by
  unfold edit at h
  split at h
  · next t hf =>
    cases h
    exact ⟨t, hf, rfl⟩
  · cases h

/-- Where a run goes on, its first part was done. -/
theorem bind_eq_done {f : α → Run S β} {b : β} (h : (x >>= f) s = .done b s') :
    ∃ a s₁, x s = .done a s₁ ∧ f a s₁ = .done b s' := by
  rw [bind_eq, andThen] at h
  split at h
  · next a s₁ hx => exact ⟨a, s₁, hx, h⟩
  · cases h
  · cases h

theorem bind_eq_failed {f : α → Run S β} {e : Error} (h : (x >>= f) s = .failed e s') :
    x s = .failed e s' ∨ ∃ a s₁, x s = .done a s₁ ∧ f a s₁ = .failed e s' := by
  rw [bind_eq, andThen] at h
  split at h
  · next a s₁ hx => exact .inr ⟨a, s₁, hx, h⟩
  · next hx =>
    cases h
    exact .inl hx
  · cases h

theorem Tracks.bind {f g : α → Run S β} (h : Tracks R x y s)
    (hf : ∀ a s', ReflTransGen R s s' → x s = .done a s' → Tracks R (f a) (g a) s') :
    Tracks R (x >>= f) (y >>= g) s where
  done hxf := by
    obtain ⟨a, s₁, hx, hfa⟩ := bind_eq_done hxf
    obtain ⟨hy, hs⟩ := h.done hx
    obtain ⟨hg, hs'⟩ := (hf a s₁ hs hx).done hfa
    exact ⟨(bind_of_done hy).trans hg, hs.trans hs'⟩
  failed hxf := by
    rcases bind_eq_failed hxf with hx | ⟨a, s₁, hx, hfa⟩
    · obtain ⟨hy, hs⟩ := h.failed hx
      exact ⟨bind_of_failed hy, hs⟩
    · obtain ⟨hy, hs⟩ := h.done hx
      obtain ⟨hg, hs'⟩ := (hf a s₁ hs hx).failed hfa
      exact ⟨(bind_of_done hy).trans hg, hs.trans hs'⟩

/-- A look goes on from the same state. -/
theorem tracks_look_bind {γ : Type} {f : S → α} {f' : S → γ} {k : α → Run S β} {k' : γ → Run S β}
    (h : Tracks R (k (f s)) (k' (f' s)) s) : Tracks R (look f >>= k) (look f' >>= k') s :=
  ⟨fun hx => h.done hx, fun hx => h.failed hx⟩

theorem look_bind {f : S → T} {k : T → Run S β} : (look f >>= k) s = k (f s) s := rfl

/-- A result that is there goes on from the same state. -/
theorem tracks_ofExcept_bind {r : Except Error α} {k k' : α → Run S β}
    (h : ∀ a, r = .ok a → Tracks R (k a) (k' a) s) :
    Tracks R (ofExcept r >>= k) (ofExcept r >>= k') s := by
  cases r with
  | ok a => exact h a rfl
  | error e => exact tracks_fail e

theorem ends_bind_pure {done failed : S → Prop} {exhausted : Prop}
    (h : (x s).Ends done failed exhausted) (b : β) :
    ((x >>= fun _ => pure b) s).Ends done failed exhausted := by
  rw [bind_eq, andThen]
  cases hx : x s <;> rw [hx] at h <;> exact h

/-- What the first of two runs keeps, and the second keeps from there, both keep in a row. -/
theorem ends_bind {I : S → Prop} {exhausted : Prop} {f : α → Run S β}
    (h : (x s).Ends I I exhausted) (hf : ∀ a s', I s' → (f a s').Ends I I exhausted) :
    ((x >>= f) s).Ends I I exhausted := by
  rw [bind_eq, andThen]
  cases hx : x s with
  | done a s' =>
    rw [hx] at h
    exact hf a s' h
  | failed e s' =>
    rw [hx] at h
    exact h
  | exhausted =>
    rw [hx] at h
    exact h

theorem ends_forM {I : S → Prop} {exhausted : Prop} {f : α → Run S PUnit} {as : List α}
    (h : ∀ a ∈ as, ∀ s, I s → (f a s).Ends I I exhausted) (hs : I s) :
    (as.forM f s).Ends I I exhausted := by
  induction as generalizing s with
  | nil => exact hs
  | cons a as ih =>
    exact ends_bind (h a List.mem_cons_self s hs) fun _ s' hs' =>
      ih (fun b hb => h b (List.mem_cons_of_mem _ hb)) hs'

theorem ends_attempt {I : S → Prop} {exhausted : Prop} (h : (x s).Ends I I exhausted) :
    (x.attempt s).Ends I I exhausted := by
  rw [Run.attempt]
  cases hx : x s <;> rw [hx] at h <;> exact h

/-- What is so wherever the attempt of a run ends is so wherever the run ends. -/
theorem ends_of_attempt {I : S → Prop} (h : ∀ r s', x.attempt s = .done r s' → I s') :
    (x s).Ends I I True := by
  unfold Run.attempt at h
  cases hx : x s with
  | done a s' => exact h (.ok a) s' (by rw [hx])
  | failed e s' => exact h (.error e) s' (by rw [hx])
  | exhausted => trivial

/-- And what is so wherever the run ends is so wherever its attempt ends. -/
theorem of_attempt_of_ends {I : S → Prop} {exhausted : Prop} (h : (x s).Ends I I exhausted)
    {r : Except Error α} (hx : x.attempt s = .done r s') : I s' := by
  have h := ends_attempt h
  rw [hx] at h
  exact h

/-- A run that does not use up its depth has an attempt. -/
theorem exists_attempt {I : S → Prop} (h : (x s).Ends I I False) :
    ∃ r s', x.attempt s = .done r s' ∧ I s' := by
  unfold Run.attempt
  cases hx : x s with
  | done a s' => exact ⟨_, s', rfl, by rwa [hx] at h⟩
  | failed e s' => exact ⟨_, s', rfl, by rwa [hx] at h⟩
  | exhausted =>
    rw [hx] at h
    cases h

theorem ends_edit {I : S → Prop} {exhausted : Prop} {get : S → T} {put : T → S → S}
    {f : T → Except Error α × T} (h : ∀ r t, f (get s) = (r, t) → I (put t s)) :
    (edit get put f s).Ends I I exhausted := by
  unfold edit
  split
  · next hf => exact h _ _ hf
  · next hf => exact h _ _ hf

theorem attempt_eq_done {r : Except Error α} (h : x.attempt s = .done r s') :
    (∃ a, r = .ok a ∧ x s = .done a s') ∨ ∃ e, r = .error e ∧ x s = .failed e s' := by
  unfold Run.attempt at h
  split at h
  · next a s₁ hx =>
    cases h
    exact .inl ⟨a, rfl, hx⟩
  · next e s₁ hx =>
    cases h
    exact .inr ⟨e, rfl, hx⟩
  · cases h

theorem attempt_of_done {a : α} (h : x s = .done a s') : x.attempt s = .done (.ok a) s' := by
  rw [Run.attempt, h]

theorem attempt_of_failed {e : Error} (h : x s = .failed e s') :
    x.attempt s = .done (.error e) s' := by
  rw [Run.attempt, h]

theorem attempt_bind_of_done {f : α → Run S β} {a : α} (h : x s = .done a s') :
    (x >>= f).attempt s = (f a).attempt s' := by
  rw [Run.attempt, Run.attempt, bind_of_done h]

theorem attempt_eq_ok {a : α} (h : x.attempt s = .done (.ok a) s') : x s = .done a s' := by
  rcases attempt_eq_done h with ⟨b, hb, hx⟩ | ⟨e, he, -⟩
  · cases hb
    exact hx
  · cases he

theorem attempt_eq_error {e : Error} (h : x.attempt s = .done (.error e) s') :
    x s = .failed e s' := by
  rcases attempt_eq_done h with ⟨b, hb, -⟩ | ⟨e', he, hx⟩
  · cases hb
  · cases he
    exact hx

theorem Tracks.attempt (h : Tracks R x y s) : Tracks R x.attempt y.attempt s where
  done hx := by
    rcases attempt_eq_done hx with ⟨a, rfl, hx'⟩ | ⟨e, rfl, hx'⟩
    · obtain ⟨hy, hs⟩ := h.done hx'
      exact ⟨by rw [Run.attempt, hy], hs⟩
    · obtain ⟨hy, hs⟩ := h.failed hx'
      exact ⟨by rw [Run.attempt, hy], hs⟩
  failed hx := by
    unfold Run.attempt at hx
    split at hx <;> cases hx

theorem tracks_forM {f g : α → Run S PUnit} {as : List α}
    (h : ∀ a ∈ as, ∀ s', Tracks R (f a) (g a) s') : Tracks R (as.forM f) (as.forM g) s := by
  induction as generalizing s with
  | nil => exact tracks_pure _
  | cons a as ih =>
    refine (h a List.mem_cons_self s).bind fun _ s' _ _ => ?_
    exact ih fun b hb => h b (List.mem_cons_of_mem _ hb)

/-- A run on a part of the state, whose steps there are steps of the whole. -/
theorem Tracks.onPart {Q : T → T → Prop} {get : S → T} {put : T → S → S} {x y : Run T α}
    (h : Tracks Q x y (get s)) (hQ : ∀ t, ReflTransGen Q (get s) t → ReflTransGen R s (put t s)) :
    Tracks R (x.onPart get put) (y.onPart get put) s where
  done hx := by
    unfold Run.onPart at hx
    split at hx
    · next a t ht =>
      cases hx
      obtain ⟨hy, hs⟩ := h.done ht
      exact ⟨by rw [Run.onPart, hy], hQ t hs⟩
    · cases hx
    · cases hx
  failed hx := by
    unfold Run.onPart at hx
    split at hx
    · cases hx
    · next e t ht =>
      cases hx
      obtain ⟨hy, hs⟩ := h.failed ht
      exact ⟨by rw [Run.onPart, hy], hQ t hs⟩
    · cases hx

/-- What every step keeps is kept by a run that ends. -/
theorem keeps_of_steps {I : S → Prop} (hI : ∀ s s', R s s' → I s → I s') (hs : I s)
    (h : ReflTransGen R s s') : I s' := by
  induction h with
  | refl => exact hs
  | tail _ hstep ih => exact hI _ _ hstep ih

end Run

end ReactiveView
