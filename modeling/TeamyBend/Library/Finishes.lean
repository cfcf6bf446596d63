/-
# How a computation with errors finishes

`Finishes m s Q E` says what holds when the computation `m` finishes from the state `s`: `Q` of its
result and of the state that it leaves, or `E` of its error and of the state where it failed.  A
sequence finishes as its parts do (`Finishes.bind`).
-/
import Mathlib.Logic.Basic

namespace TeamyBend.Library

variable {ε σ α β : Type}

/-- `m` finishes with `Q`, or fails with `E`. -/
def Finishes (m : EStateM ε σ α) (s : σ) (Q : α → σ → Prop) (E : ε → σ → Prop) : Prop :=
  match m s with
  | .ok a s' => Q a s'
  | .error err s' => E err s'

namespace Finishes

variable {m : EStateM ε σ α} {f : α → EStateM ε σ β} {s : σ} {Q Q' : α → σ → Prop}
  {R : β → σ → Prop} {E E' : ε → σ → Prop}

theorem ok {a : α} {s' : σ} (hrun : m s = .ok a s') (h : Q a s') : Finishes m s Q E := by
  unfold Finishes
  rw [hrun]
  exact h

theorem error {err : ε} {s' : σ} (hrun : m s = .error err s') (h : E err s') :
    Finishes m s Q E := by
  unfold Finishes
  rw [hrun]
  exact h

theorem mono (h : Finishes m s Q E) (hQ : ∀ a s', Q a s' → Q' a s')
    (hE : ∀ err s', E err s' → E' err s') : Finishes m s Q' E' := by
  unfold Finishes at h ⊢
  cases hrun : m s with
  | ok a s' =>
    rw [hrun] at h
    exact hQ a s' h
  | error err s' =>
    rw [hrun] at h
    exact hE err s' h

theorem imp (h : Finishes m s Q E) (hQ : ∀ a s', Q a s' → Q' a s') : Finishes m s Q' E :=
  h.mono hQ fun _ _ he => he

theorem pure {a : α} (h : Q a s) : Finishes (Pure.pure a : EStateM ε σ α) s Q E := ok rfl h

theorem throw {err : ε} (h : E err s) :
    Finishes (MonadExcept.throw err : EStateM ε σ α) s Q E := error rfl h

theorem of_modify {g : σ → σ} {Q : Unit → σ → Prop} (h : Q () (g s)) :
    Finishes (modify g : EStateM ε σ Unit) s Q E := ok rfl h

/-- What follows starts where the first part finished. -/
theorem bind (h : Finishes m s Q E) (hf : ∀ a s', Q a s' → Finishes (f a) s' R E) :
    Finishes (m >>= f) s R E := by
  unfold Finishes at h
  have hstep : (m >>= f) s = match m s with
      | .ok a s' => f a s'
      | .error err s' => .error err s' := rfl
  unfold Finishes
  rw [hstep]
  cases hrun : m s with
  | ok a s' =>
    rw [hrun] at h
    exact hf a s' h
  | error err s' =>
    rw [hrun] at h
    exact h

theorem get_bind {f : σ → EStateM ε σ β} (h : Finishes (f s) s R E) :
    Finishes (get >>= f) s R E := by
  refine bind (Q := fun a s' => a = s ∧ s' = s) (ok rfl ⟨rfl, rfl⟩) ?_
  rintro a s' ⟨rfl, rfl⟩
  exact h

theorem modify_bind {g : σ → σ} {f : Unit → EStateM ε σ β} (h : Finishes (f ()) (g s) R E) :
    Finishes (modify g >>= f) s R E := by
  refine bind (Q := fun _ s' => s' = g s) (of_modify rfl) ?_
  rintro a s' rfl
  exact h

theorem ite {c : Prop} [Decidable c] {m' : EStateM ε σ α} (ht : c → Finishes m s Q E)
    (hf : ¬c → Finishes m' s Q E) : Finishes (if c then m else m') s Q E := by
  split
  · next hc => exact ht hc
  · next hc => exact hf hc

theorem result {a : α} {s' : σ} (h : Finishes m s Q E) (hrun : m s = .ok a s') : Q a s' := by
  unfold Finishes at h
  rwa [hrun] at h

/-- A computation that finishes has an end of one of the two kinds. -/
theorem cases (h : Finishes m s Q E) :
    (∃ a s', m s = .ok a s' ∧ Q a s') ∨ ∃ err s', m s = .error err s' ∧ E err s' := by
  unfold Finishes at h
  cases hrun : m s with
  | ok a s' =>
    rw [hrun] at h
    exact .inl ⟨a, s', rfl, h⟩
  | error err s' =>
    rw [hrun] at h
    exact .inr ⟨err, s', rfl, h⟩

/-- Both parts of a sequence that succeeds succeed. -/
theorem parts {b : β} {s' : σ} (hrun : (m >>= f) s = .ok b s') :
    ∃ a s₁, m s = .ok a s₁ ∧ f a s₁ = .ok b s' := by
  have hstep : (m >>= f) s = match m s with
      | .ok a s' => f a s'
      | .error err s' => .error err s' := rfl
  rw [hstep] at hrun
  cases hfirst : m s with
  | ok a s₁ =>
    rw [hfirst] at hrun
    exact ⟨a, s₁, rfl, hrun⟩
  | error err s₁ =>
    rw [hfirst] at hrun
    cases hrun

end Finishes

/-- A computation gives this result. -/
def yields [DecidableEq α] (m : EStateM ε σ α) (s : σ) (a : α) : Bool :=
  match m s with
  | .ok b _ => b = a
  | .error _ _ => false

theorem exists_of_yields [DecidableEq α] {m : EStateM ε σ α} {s : σ} {a : α}
    (h : yields m s a = true) : ∃ s', m s = .ok a s' := by
  unfold yields at h
  split at h
  · next b s' hrun => exact ⟨s', of_decide_eq_true h ▸ hrun⟩
  · cases h

end TeamyBend.Library
