/-
# Lazy naturals

A natural as it is met one successor at a time: `n` successors and a zero, `n` successors and
then nothing more, or successors without end.

`grow k z` replaces every successor by `k` of them and the zero by `z`, on partial and on endless
naturals as well.
-/
import Mathlib.Logic.Function.Iterate

namespace TeamyBend.Library

/-- A natural that may be partial or endless. -/
inductive LazyNat where
  | whole (n : Nat)
  | cut (n : Nat)
  | endless
  deriving DecidableEq

namespace LazyNat

/-! ## 1. Successors -/

/-- One successor more. -/
def succ : LazyNat → LazyNat
  | whole n => whole (n + 1)
  | cut n => cut (n + 1)
  | endless => endless

/-- The outermost constructor: nothing, a zero, or a successor of something. -/
inductive View where
  | nothing
  | zero
  | succ (pred : LazyNat)

/-- The outermost constructor of a lazy natural. -/
def view : LazyNat → View
  | whole 0 => .zero
  | whole (n + 1) => .succ (whole n)
  | cut 0 => .nothing
  | cut (n + 1) => .succ (cut n)
  | endless => .succ endless

@[simp] theorem view_succ (u : LazyNat) : u.succ.view = .succ u := by
  cases u <;> rfl

/-- `n` successors in front. -/
def after (n : Nat) (u : LazyNat) : LazyNat := succ^[n] u

@[simp] theorem after_zero (u : LazyNat) : after 0 u = u := rfl

/-- One successor more. -/
theorem after_succ (n : Nat) (u : LazyNat) : after (n + 1) u = succ (after n u) :=
  Function.iterate_succ_apply' succ n u

@[simp] theorem after_one (u : LazyNat) : after 1 u = succ u := rfl

/-- Successors before successors. -/
theorem after_add (m n : Nat) (u : LazyNat) : after (m + n) u = after m (after n u) :=
  Function.iterate_add_apply succ m n u

/-- Successors before an endless number change nothing. -/
theorem after_endless (n : Nat) : after n endless = endless :=
  Function.iterate_fixed rfl n

@[simp] theorem after_whole (n m : Nat) : after n (whole m) = whole (n + m) := by
  induction n with
  | zero => simp
  | succ n ih =>
    rw [after_succ, ih, succ]
    congr 1
    omega

/-! ## 2. Growing -/

/-- Every successor becomes `k` of them, and the zero becomes `z`. -/
def grow (k : Nat) (z : LazyNat) : LazyNat → LazyNat
  | whole n => after (k * n) z
  | cut n => after (k * n) (cut 0)
  | endless => endless

@[simp] theorem grow_zero (k : Nat) (z : LazyNat) : grow k z (whole 0) = z := rfl

@[simp] theorem grow_nothing (k : Nat) (z : LazyNat) : grow k z (cut 0) = cut 0 := rfl

/-- Each successor grows by its own step. -/
theorem grow_succ (k : Nat) (z u : LazyNat) : grow k z u.succ = after k (grow k z u) := by
  have hmul (n : Nat) : k * (n + 1) = k + k * n := by
    rw [Nat.mul_succ, Nat.add_comm]
  cases u with
  | whole n => rw [succ, grow, grow, hmul, after_add]
  | cut n => rw [succ, grow, grow, hmul, after_add]
  | endless => exact (after_endless k).symm

end LazyNat

end TeamyBend.Library
