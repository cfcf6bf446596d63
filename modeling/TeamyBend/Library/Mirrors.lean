/-
# Two programs side by side

`Mirrors give m m' s t Q` says that `m`, from the state `s`, ends as `m'` does from the state `t`:
with results and states that `Q` relates, or with the same error.  Where `give` holds of its error
and of the state that it leaves, the first may give up although the second goes on.

The rules carry this through the parts of both programs; a part that only the first has needs to
finish with errors that are given up (`Mirrors.left`).
-/
import TeamyBend.Library.Finishes

namespace TeamyBend.Library

variable {ε σ τ α β γ δ : Type}

/-- `m` ends as `m'` does, or gives up. -/
def Mirrors (give : ε → σ → Prop) (m : EStateM ε σ α) (m' : EStateM ε τ β) (s : σ) (t : τ)
    (Q : α → σ → β → τ → Prop) : Prop :=
  match m s with
  | .ok a s' => ∃ b t', m' t = .ok b t' ∧ Q a s' b t'
  | .error err s' => give err s' ∨ ∃ t', m' t = .error err t'

namespace Mirrors

variable {give : ε → σ → Prop} {m : EStateM ε σ α} {m' : EStateM ε τ β} {s : σ} {t : τ}
  {Q Q' : α → σ → β → τ → Prop} {f : α → EStateM ε σ γ} {f' : β → EStateM ε τ δ}
  {R : γ → σ → δ → τ → Prop}

theorem ok {a : α} {s' : σ} {b : β} {t' : τ} (hrun : m s = .ok a s') (hrun' : m' t = .ok b t')
    (h : Q a s' b t') : Mirrors give m m' s t Q := by
  unfold Mirrors
  rw [hrun]
  exact ⟨b, t', hrun', h⟩

/-- Both sides fail alike. -/
theorem error {err : ε} {s' : σ} {t' : τ} (hrun : m s = .error err s')
    (hrun' : m' t = .error err t') : Mirrors give m m' s t Q := by
  unfold Mirrors
  rw [hrun]
  exact .inr ⟨t', hrun'⟩

theorem pure {a : α} {b : β} (h : Q a s b t) :
    Mirrors give (Pure.pure a : EStateM ε σ α) (Pure.pure b : EStateM ε τ β) s t Q := ok rfl rfl h

theorem throw (err : ε) :
    Mirrors give (MonadExcept.throw err : EStateM ε σ α) (MonadExcept.throw err : EStateM ε τ β)
      s t Q := error rfl rfl

/-- The relation may be weakened. -/
theorem imp (h : Mirrors give m m' s t Q) (hQ : ∀ a s' b t', Q a s' b t' → Q' a s' b t') :
    Mirrors give m m' s t Q' := by
  unfold Mirrors at h ⊢
  cases hrun : m s with
  | ok a s' =>
    rw [hrun] at h
    obtain ⟨b, t', hrun', hq⟩ := h
    exact ⟨b, t', hrun', hQ a s' b t' hq⟩
  | error err s' =>
    rw [hrun] at h
    exact h

theorem bind_eq (m : EStateM ε σ α) (f : α → EStateM ε σ γ) (s : σ) :
    (m >>= f) s = match m s with
      | .ok a s' => f a s'
      | .error err s' => .error err s' := rfl

/-- What follows starts where both first parts ended. -/
theorem bind (h : Mirrors give m m' s t Q)
    (hf : ∀ a s' b t', Q a s' b t' → Mirrors give (f a) (f' b) s' t' R) :
    Mirrors give (m >>= f) (m' >>= f') s t R := by
  unfold Mirrors at h
  unfold Mirrors
  rw [bind_eq, bind_eq]
  cases hrun : m s with
  | ok a s' =>
    rw [hrun] at h
    obtain ⟨b, t', hrun', hq⟩ := h
    rw [hrun']
    exact hf a s' b t' hq
  | error err s' =>
    rw [hrun] at h
    obtain hgive | ⟨t', hrun'⟩ := h
    · exact .inl hgive
    · rw [hrun']
      exact .inr ⟨t', rfl⟩

/-- A part that only the first program has. -/
theorem left {P : α → σ → Prop} {R : γ → σ → β → τ → Prop}
    (h : Finishes m s P give)
    (hf : ∀ a s', P a s' → Mirrors give (f a) m' s' t R) :
    Mirrors give (m >>= f) m' s t R := by
  unfold Finishes at h
  unfold Mirrors
  rw [bind_eq]
  cases hrun : m s with
  | ok a s' =>
    rw [hrun] at h
    exact hf a s' h
  | error err s' =>
    rw [hrun] at h
    exact .inl h

/-- A test that both sides make alike. -/
theorem ite {c : Prop} [Decidable c] {n : EStateM ε σ α} {n' : EStateM ε τ β}
    (ht : c → Mirrors give m m' s t Q) (hf : ¬c → Mirrors give n n' s t Q) :
    Mirrors give (if c then m else n) (if c then m' else n') s t Q := by
  split
  · next hc => exact ht hc
  · next hc => exact hf hc

end Mirrors

end TeamyBend.Library
