/-
# How a budgeted computation ends

`Ends B k m s Q P` says how the computation `m` ends from the state `s`: with a result and a state
of which `Q` holds, or with an error of which `P` holds, or because a budget is used up.  The last
can only be where the state does not afford `k`.  So a state that affords `k` gets the result, and
where the budget does not suffice nothing else goes wrong.

The costs of a sequence add up (`Ends.bind`).
-/
import Mathlib.Logic.Basic

namespace TeamyBend.Library

/-- What a computation may use up: the errors that report it, and the states that can still pay
an amount. -/
structure Budget (ε σ : Type) where
  exhausted : ε → Prop
  affords : σ → Nat → Prop
  less : ∀ s k j, affords s (k + j) → affords s k

variable {ε σ α β : Type}

/-- `m` ends with `Q`, or with an error `P`, or is not affordable. -/
def Ends (B : Budget ε σ) (k : Nat) (m : EStateM ε σ α) (s : σ) (Q : α → σ → Prop)
    (P : ε → Prop) : Prop :=
  match m s with
  | .ok a s' => Q a s' ∧ ∀ j, B.affords s (k + j) → B.affords s' j
  | .error err _ => P err ∨ B.exhausted err ∧ ¬B.affords s k

namespace Ends

variable {B : Budget ε σ} {k j : Nat} {m n : EStateM ε σ α} {s s' : σ} {Q Q' : α → σ → Prop}
  {P P' : ε → Prop}

theorem ok {a : α} (hrun : m s = .ok a s') (hQ : Q a s')
    (hpays : ∀ j, B.affords s (k + j) → B.affords s' j) : Ends B k m s Q P := by
  unfold Ends
  rw [hrun]
  exact ⟨hQ, hpays⟩

theorem error {err : ε} (hrun : m s = .error err s')
    (h : P err ∨ B.exhausted err ∧ ¬B.affords s k) : Ends B k m s Q P := by
  unfold Ends
  rw [hrun]
  exact h

/-- The end may be weakened on both sides. -/
theorem mono (h : Ends B k m s Q P) (hQ : ∀ a s', Q a s' → Q' a s') (hP : ∀ err, P err → P' err) :
    Ends B k m s Q' P' := by
  unfold Ends at h ⊢
  cases hrun : m s with
  | ok a s' =>
    rw [hrun] at h
    exact ⟨hQ a s' h.1, h.2⟩
  | error err s' =>
    rw [hrun] at h
    exact h.imp_left (hP err)

theorem imp (h : Ends B k m s Q P) (hQ : ∀ a s', Q a s' → Q' a s') : Ends B k m s Q' P :=
  h.mono hQ fun _ he => he

/-- A cost may be rounded up. -/
theorem more {l : Nat} (h : Ends B k m s Q P) (hk : k ≤ l) : Ends B l m s Q P := by
  obtain ⟨i, rfl⟩ := Nat.exists_eq_add_of_le hk
  unfold Ends at h ⊢
  cases hrun : m s with
  | ok a s' =>
    rw [hrun] at h
    refine ⟨h.1, fun j hj => B.less s' j i (h.2 (j + i) ?_)⟩
    rwa [Nat.add_right_comm, Nat.add_assoc] at hj
  | error err s' =>
    rw [hrun] at h
    exact h.imp_right fun hbad => ⟨hbad.1, fun hafford => hbad.2 (B.less s k i hafford)⟩

theorem pure {a : α} (hQ : Q a s) : Ends B 0 (Pure.pure a : EStateM ε σ α) s Q P :=
  ok rfl hQ fun j hj => by rwa [Nat.zero_add] at hj

/-- The costs of two parts add up. -/
theorem bind {f : α → EStateM ε σ β} {R : α → σ → Prop} {Q : β → σ → Prop}
    (hm : Ends B k m s R P) (hf : ∀ a s', R a s' → Ends B j (f a) s' Q P) :
    Ends B (k + j) (m >>= f) s Q P := by
  have hrun : (m >>= f) s = EStateM.bind m f s := rfl
  unfold Ends at hm ⊢
  rw [hrun, EStateM.bind]
  cases hms : m s with
  | error err s' =>
    rw [hms] at hm
    exact hm.imp_right fun hbad => ⟨hbad.1, fun hafford => hbad.2 (B.less s k j hafford)⟩
  | ok a s' =>
    rw [hms] at hm
    have hnext := hf a s' hm.1
    unfold Ends at hnext
    show match f a s' with
      | .ok b s₂ => Q b s₂ ∧ ∀ i, B.affords s (k + j + i) → B.affords s₂ i
      | .error err _ => P err ∨ B.exhausted err ∧ ¬B.affords s (k + j)
    cases hfs : f a s' with
    | ok b s₂ =>
      rw [hfs] at hnext
      exact ⟨hnext.1, fun i hi => hnext.2 i (hm.2 (j + i) (by rwa [← Nat.add_assoc]))⟩
    | error err s₂ =>
      rw [hfs] at hnext
      exact hnext.imp_right fun hbad => ⟨hbad.1, fun hafford => hbad.2 (hm.2 j hafford)⟩

/-- A computation that reads the state first. -/
theorem read {g : σ → EStateM ε σ α} (h : Ends B k (g s) s Q P) : Ends B k (get >>= g) s Q P := h

/-- A computation that ends with a plain result. -/
theorem map {f : α → β} {Q : β → σ → Prop} (h : Ends B k m s (fun a s' => Q (f a) s') P) :
    Ends B k (m >>= fun a => Pure.pure (f a)) s Q P :=
  Ends.bind (j := 0) h fun _ _ hQ => Ends.pure hQ

theorem ite {c : Prop} [Decidable c] (hm : c → Ends B k m s Q P) (hn : ¬c → Ends B k n s Q P) :
    Ends B k (if c then m else n) s Q P := by
  split
  next hc => exact hm hc
  next hc => exact hn hc

/-- A state that affords the cost gets a result, or one of the errors `P`. -/
theorem result (h : Ends B k m s Q P) (hafford : B.affords s k) :
    (∃ a s', m s = .ok a s' ∧ Q a s') ∨ ∃ err s', m s = .error err s' ∧ P err := by
  unfold Ends at h
  cases hrun : m s with
  | ok a s' =>
    rw [hrun] at h
    exact .inl ⟨a, s', rfl, h.1⟩
  | error err s' =>
    rw [hrun] at h
    exact .inr ⟨err, s', rfl, h.resolve_right fun hbad => hbad.2 hafford⟩

end Ends

end TeamyBend.Library
