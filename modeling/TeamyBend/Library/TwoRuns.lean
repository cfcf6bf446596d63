/-
# Two runs of one program

A computation that keeps a state also where it fails, run twice on two states.  `Follows f R m m'`
says that `m` leaves `f` of the state as it was, however it ends, and that each success of `m` is
one of `m'` with the same result, from states related by `R` to states related by `R`.

The rules carry it through sequence, choice and the operations on the state, so that a program of
many functions needs one lemma for each.
-/
import Mathlib.Logic.Basic

namespace TeamyBend.Library

variable {ε σ α β γ : Type}

/-- The state a run leaves. -/
def stateAfter (m : EStateM ε σ α) (s : σ) : σ :=
  match m s with
  | .ok _ s' => s'
  | .error _ s' => s'

/-- `m` leaves `f` alone, and `m'` succeeds where `m` does. -/
structure Follows (f : σ → γ) (R : σ → σ → Prop) (m m' : EStateM ε σ α) : Prop where
  fixes : ∀ s, f (stateAfter m s) = f s
  more : ∀ s s' a s₁, R s s' → m s = .ok a s₁ → ∃ s₁', m' s' = .ok a s₁' ∧ R s₁ s₁'

namespace Follows

variable {f : σ → γ} {R : σ → σ → Prop}

theorem pure (a : α) : Follows f R (Pure.pure a : EStateM ε σ α) (Pure.pure a) := by
  refine ⟨fun s => rfl, fun s s' b s₁ hR h => ?_⟩
  cases h
  exact ⟨s', rfl, hR⟩

/-- A computation that fails and changes nothing. -/
theorem throw (err : ε) (m' : EStateM ε σ α) :
    Follows f R (MonadExcept.throw err : EStateM ε σ α) m' := by
  refine ⟨fun s => rfl, fun s s' a s₁ hR h => ?_⟩
  cases h

theorem bind {m m' : EStateM ε σ α} {k k' : α → EStateM ε σ β} (hm : Follows f R m m')
    (hk : ∀ a, Follows f R (k a) (k' a)) : Follows f R (m >>= k) (m' >>= k') := by
  have hrun (m : EStateM ε σ α) (k : α → EStateM ε σ β) (s : σ) :
      (m >>= k) s = EStateM.bind m k s := rfl
  refine ⟨fun s => ?_, fun s s' b s₂ hR h => ?_⟩
  · have hfixes := hm.fixes s
    rw [stateAfter] at hfixes ⊢
    rw [hrun, EStateM.bind]
    cases hms : m s with
    | error err s₁ =>
      rw [hms] at hfixes
      exact hfixes
    | ok a s₁ =>
      rw [hms] at hfixes
      exact ((hk a).fixes s₁).trans hfixes
  · rw [hrun, EStateM.bind] at h
    cases hms : m s with
    | error err s₁ =>
      rw [hms] at h
      cases h
    | ok a s₁ =>
      rw [hms] at h
      obtain ⟨s₁', hm', hR₁⟩ := hm.more s s' a s₁ hR hms
      obtain ⟨s₂', hk', hR₂⟩ := (hk a).more s₁ s₁' b s₂ hR₁ h
      refine ⟨s₂', ?_, hR₂⟩
      rw [hrun, EStateM.bind, hm']
      exact hk'

theorem ite {c : Prop} [Decidable c] {m m' n n' : EStateM ε σ α} (hm : Follows f R m m')
    (hn : Follows f R n n') :
    Follows f R (if c then m else n) (if c then m' else n') := by
  split
  · exact hm
  · exact hn

/-- A computation that depends on the state, in a way that related states agree on. -/
theorem read {g g' : σ → EStateM ε σ α} (hg : ∀ s, Follows f R (g s) (g' s))
    (hsame : ∀ s s', R s s' → g' s' = g' s) : Follows f R (get >>= g) (get >>= g') := by
  refine ⟨fun s => (hg s).fixes s, fun s s' a s₁ hR h => ?_⟩
  obtain ⟨s₁', hrun, hR₁⟩ := (hg s).more s s' a s₁ hR h
  refine ⟨s₁', ?_, hR₁⟩
  show g' s' s' = _
  rw [hsame s s' hR]
  exact hrun

theorem modify {c c' : σ → σ} (hc : ∀ s, f (c s) = f s) (hR : ∀ s s', R s s' → R (c s) (c' s')) :
    Follows f R (modify c : EStateM ε σ PUnit) (modify c') := by
  refine ⟨hc, fun s s' u s₁ hs h => ?_⟩
  cases h
  exact ⟨c' s', rfl, hR s s' hs⟩

/-- One run by itself, which leaves a part of `f` alone. -/
theorem alone {δ : Type} {m m' : EStateM ε σ α} (g : γ → δ) (hm : Follows f R m m') :
    Follows (fun s => g (f s)) (fun _ _ => False) m m :=
  ⟨fun s => congrArg g (hm.fixes s), fun _ _ _ _ hR _ => hR.elim⟩

end Follows

end TeamyBend.Library
