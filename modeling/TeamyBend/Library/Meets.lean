/-
# Meets over two ranks

Expressions built from a lowest rank, a top rank, variables and binary meets, read under
assignments of the two ranks to the variables.  One expression is below another when it is at
most the other under every assignment.

Two rules decide this order.  A meet on the right is below-tested side by side
(`below_meet_iff`).  A meet on the left is below something without meets exactly when one of its
sides is (`meet_below_iff`): an expression without meets that is not the top has a greatest
assignment at which it is low, and there one side of the meet has to be low already.
-/
import Mathlib.Order.Lattice
import Mathlib.Order.MinMax
import Mathlib.Data.Bool.Basic

namespace TeamyBend.Library.Meets

/-- An expression over the variables `V`. -/
inductive Expr (V : Type) where
  | low
  | top
  | var (v : V)
  | meet (a b : Expr V)

namespace Expr

variable {V : Type} {ρ σ : V → Bool} {x y a b : Expr V}

/-- The rank of an expression: `false` is the lowest and `true` the top. -/
def rank (ρ : V → Bool) : Expr V → Bool
  | low => false
  | top => true
  | var v => ρ v
  | meet a b => min (rank ρ a) (rank ρ b)

/-- `x` is at most `y` under every assignment. -/
def Below (x y : Expr V) : Prop := ∀ ρ, rank ρ x ≤ rank ρ y

/-- How deeply the meets of an expression nest. -/
def height : Expr V → Nat
  | meet a b => max (height a) (height b) + 1
  | _ => 0

theorem rank_mono (h : ∀ v, ρ v ≤ σ v) (x : Expr V) : rank ρ x ≤ rank σ x := by
  induction x with
  | low => exact Bool.le_refl _
  | top => exact Bool.le_refl _
  | var v => exact h v
  | meet a b iha ihb => exact min_le_min iha ihb

/-! ## 1. What is below what -/

theorem Below.refl (x : Expr V) : Below x x := fun _ => Bool.le_refl _

/-- Only the ranks matter. -/
theorem below_congr (hx : ∀ ρ, rank ρ a = rank ρ x) (hy : ∀ ρ, rank ρ b = rank ρ y) :
    Below a b ↔ Below x y := by
  unfold Below
  constructor
  · intro h ρ
    rw [← hx, ← hy]
    exact h ρ
  · intro h ρ
    rw [hx, hy]
    exact h ρ

theorem below_top (x : Expr V) : Below x top := fun _ => Bool.le_true _

theorem low_below (x : Expr V) : Below low x := fun _ => Bool.false_le _

theorem below_meet_iff : Below x (meet a b) ↔ Below x a ∧ Below x b := by
  constructor
  · intro h
    exact ⟨fun ρ => (le_min_iff.mp (h ρ)).1, fun ρ => (le_min_iff.mp (h ρ)).2⟩
  · rintro ⟨ha, hb⟩ ρ
    exact le_min (ha ρ) (hb ρ)

/-- `ρ` is the greatest assignment at which `a` is low. -/
structure Worst (ρ : V → Bool) (a : Expr V) : Prop where
  low : rank ρ a = false
  greatest : ∀ σ, rank σ a = false → ∀ v, σ v ≤ ρ v

theorem worst_low : Worst (fun _ => true) (low : Expr V) :=
  ⟨rfl, fun _ _ _ => Bool.le_true _⟩

theorem worst_var [DecidableEq V] (v : V) : Worst (fun u => decide (u ≠ v)) (var v) := by
  refine ⟨by simp [rank], fun σ hσ u => ?_⟩
  by_cases huv : u = v
  · subst huv
    rw [rank] at hσ
    rw [hσ]
    exact Bool.false_le _
  · rw [decide_eq_true huv]
    exact Bool.le_true _

/-- What is low at the worst assignment is below. -/
theorem Worst.below (h : Worst ρ a) (hx : rank ρ x = false) : Below x a := by
  intro σ
  cases ha : rank σ a with
  | true => exact Bool.le_true _
  | false =>
    have hmono : rank σ x ≤ rank ρ x := rank_mono (h.greatest σ ha) x
    rwa [hx] at hmono

/-- **A meet is below an expression without meets when one side is.** -/
theorem meet_below_iff (h : Worst ρ a) : Below (meet x y) a ↔ Below x a ∨ Below y a := by
  constructor
  · intro hmeet
    have hlow : min (rank ρ x) (rank ρ y) ≤ false := by
      have := hmeet ρ
      rwa [h.low] at this
    rcases min_le_iff.mp hlow with hx | hy
    · exact Or.inl (h.below (Bool.eq_false_of_le_false hx))
    · exact Or.inr (h.below (Bool.eq_false_of_le_false hy))
  · rintro (hx | hy) σ
    · exact le_trans (min_le_left _ _) (hx σ)
    · exact le_trans (min_le_right _ _) (hy σ)

theorem not_top_below (h : Worst ρ a) : ¬Below top a := by
  intro hle
  have hlow := hle ρ
  rw [h.low] at hlow
  change true ≤ false at hlow
  exact absurd hlow (by decide)

theorem not_var_below_low (v : V) : ¬Below (var v) low := by
  intro hle
  exact absurd (hle fun _ => true) (by simp [rank])

theorem var_below_var_iff {u v : V} : Below (var u) (var v) ↔ u = v := by
  classical
  constructor
  · intro hle
    by_contra huv
    have := hle fun w => decide (w = u)
    simp only [rank, decide_true] at this
    rw [decide_eq_false (Ne.symm huv)] at this
    exact absurd this (by decide)
  · rintro rfl
    exact .refl _

end Expr

end TeamyBend.Library.Meets
