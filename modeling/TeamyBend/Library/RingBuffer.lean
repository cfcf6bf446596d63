/-
# Circular buffers

A list kept in the slots of an array from a head on, around its end.  A slot out of use is empty.
-/
import Mathlib.Data.List.Basic
import Mathlib.Data.Nat.ModEq
import Mathlib.Tactic.Common

namespace TeamyBend.Library.RingBuffer

variable {α : Type} {ring : List (Option α)} {head : Nat} {xs : List α}

/-- The slots from `head` on hold the list. -/
structure Holds (ring : List (Option α)) (head : Nat) (xs : List α) : Prop where
  fits : xs.length ≤ ring.length
  slot : ∀ i x, xs[i]? = some x → ring[(head + i) % ring.length]? = some (some x)

theorem Holds.nil (ring : List (Option α)) (head : Nat) : Holds ring head [] where
  fits := Nat.zero_le _
  slot i x h := by simp at h

/-- Offsets below the size of the array are different slots. -/
theorem slot_ne (head : Nat) {n i j : Nat} (hi : i < n) (hj : j < n) (hne : i ≠ j) :
    (head + i) % n ≠ (head + j) % n := fun h => by
  have hmod : i % n = j % n := Nat.ModEq.add_left_cancel' head h
  rw [Nat.mod_eq_of_lt hi, Nat.mod_eq_of_lt hj] at hmod
  exact hne hmod

/-- **A value behind the last.** -/
theorem Holds.push (h : Holds ring head xs) (hroom : xs.length < ring.length) (x : α) :
    Holds (ring.set ((head + xs.length) % ring.length) (some x)) head (xs ++ [x]) where
  fits := by
    rw [List.length_append, List.length_singleton, List.length_set]
    omega
  slot i y hy := by
    have hpos : 0 < ring.length := Nat.zero_lt_of_lt hroom
    rw [List.length_set]
    rcases Nat.lt_trichotomy i xs.length with hi | rfl | hi
    · rw [List.getElem?_append_left hi] at hy
      rw [List.getElem?_set_ne (slot_ne head hroom (Nat.lt_trans hi hroom) (Nat.ne_of_gt hi))]
      exact h.slot i y hy
    · rw [List.getElem?_append_right (Nat.le_refl _), Nat.sub_self] at hy
      cases hy
      rw [List.getElem?_set_self (Nat.mod_lt _ hpos)]
    · rw [List.getElem?_eq_none (by simp; omega)] at hy
      cases hy

/-- **The first value.** -/
theorem Holds.first {x : α} (h : Holds ring head (x :: xs)) (hhead : head < ring.length) :
    ring[head]? = some (some x) := by
  have hslot := h.slot 0 x rfl
  rwa [Nat.add_zero, Nat.mod_eq_of_lt hhead] at hslot

/-- **Without the first value.** -/
theorem Holds.pop {x : α} (h : Holds ring head (x :: xs)) (hhead : head < ring.length) :
    Holds (ring.set head none) ((head + 1) % ring.length) xs where
  fits := by
    have hfits := h.fits
    rw [List.length_cons] at hfits
    rw [List.length_set]
    omega
  slot i y hy := by
    have hi : i < xs.length := (List.getElem?_eq_some_iff.mp hy).1
    have hfits := h.fits
    rw [List.length_cons] at hfits
    have hoffset : ((head + 1) % ring.length + i) % ring.length =
        (head + (i + 1)) % ring.length := by
      rw [Nat.mod_add_mod, Nat.add_assoc, Nat.add_comm 1 i]
    have hne : head ≠ (head + (i + 1)) % ring.length := by
      have hpos : 0 < ring.length := by omega
      have hlt : i + 1 < ring.length := by omega
      have hslot := slot_ne head hpos hlt (Nat.succ_ne_zero i).symm
      rwa [Nat.add_zero, Nat.mod_eq_of_lt hhead] at hslot
    rw [List.length_set, hoffset, List.getElem?_set_ne hne]
    exact h.slot (i + 1) y hy

end TeamyBend.Library.RingBuffer
