/-
# Rounding to a binary format

The non-negative numbers of a binary format with subnormals, by their encodings: the exponent
field above the fraction.  Encodings are ordered as their values are, and one past an encoding is
one unit in the last place more, also across a change of the exponent and from the subnormals to
the normals.

So rounding to nearest is a division: cut the number off at its last place, and add one to the
*encoding* when the rest is more than half, or half of an odd number.  Carries into the exponent,
into the normal range and to infinity are that same addition (`rounds_roundedShift`).
-/
import Mathlib.Algebra.Order.Field.Basic
import Mathlib.Data.Rat.Cast.Order
import Mathlib.Tactic.FieldSimp
import Mathlib.Tactic.Linarith
import Mathlib.Tactic.Ring

namespace TeamyBend.Library

/-- A binary format: how many bits the fraction has, the exponent of the least positive number,
and the exponent field of infinity. -/
structure BinaryFormat where
  fraction : Nat
  least : Int
  top : Nat
  fraction_pos : 0 < fraction

namespace BinaryFormat

variable (F : BinaryFormat)

/-! ## 1. Encodings -/

/-- The number behind an encoding, in units of the least positive number. -/
def units (b : Nat) : Nat :=
  if b / 2 ^ F.fraction = 0 then b % 2 ^ F.fraction
  else (2 ^ F.fraction + b % 2 ^ F.fraction) * 2 ^ (b / 2 ^ F.fraction - 1)

/-- The number behind an encoding. -/
def value (b : Nat) : ℚ := F.units b * 2 ^ F.least

/-- The encoding of infinity. -/
def infinity : Nat := F.top * 2 ^ F.fraction

/-- Half a unit above the greatest finite number. -/
def overflow : ℚ := (F.value (F.infinity - 1) + F.value F.infinity) / 2

/-- `s` steps up the exponents, an encoding counts units of `2 ^ s`. -/
theorem units_at {s n : Nat} (hn : n ≤ 2 ^ (F.fraction + 1)) (hs : s = 0 ∨ 2 ^ F.fraction ≤ n) :
    F.units (s * 2 ^ F.fraction + n) = n * 2 ^ s := by
  have hpos : 0 < 2 ^ F.fraction := Nat.two_pow_pos _
  rw [Nat.pow_succ] at hn
  rcases Nat.lt_or_ge n (2 ^ F.fraction) with hlt | hge
  · -- a subnormal
    obtain rfl : s = 0 := by omega
    simp [units, Nat.div_eq_of_lt hlt, Nat.mod_eq_of_lt hlt]
  · rcases Nat.lt_or_ge n (2 ^ F.fraction * 2) with hlt | hge'
    · have hsplit : s * 2 ^ F.fraction + n =
          (n - 2 ^ F.fraction) + 2 ^ F.fraction * (s + 1) := by
        rw [Nat.mul_add, Nat.mul_comm s, Nat.mul_one]
        omega
      have hrest : n - 2 ^ F.fraction < 2 ^ F.fraction := by omega
      rw [hsplit, units, Nat.add_mul_div_left _ _ hpos, Nat.add_mul_mod_self_left,
        Nat.div_eq_of_lt hrest, Nat.mod_eq_of_lt hrest]
      simp only [Nat.zero_add, Nat.add_one_ne_zero, if_false, Nat.add_sub_cancel]
      rw [Nat.add_sub_cancel' hge]
    · -- the next power of two
      obtain rfl : n = 2 ^ F.fraction * 2 := by omega
      have hsplit : s * 2 ^ F.fraction + 2 ^ F.fraction * 2 = 0 + 2 ^ F.fraction * (s + 2) := by
        ring
      rw [hsplit, units, Nat.add_mul_div_left _ _ hpos, Nat.add_mul_mod_self_left]
      simp only [Nat.zero_div, Nat.zero_mod, Nat.zero_add]
      rw [if_neg (by omega), Nat.add_zero, show s + 2 - 1 = s + 1 by omega, Nat.pow_succ]
      ring

/-- Every encoding is some steps up the exponents. -/
theorem exists_steps (b : Nat) : ∃ s n, b = s * 2 ^ F.fraction + n ∧ n < 2 ^ (F.fraction + 1) ∧
    (s = 0 ∨ 2 ^ F.fraction ≤ n) := by
  have hmod : b % 2 ^ F.fraction < 2 ^ F.fraction := Nat.mod_lt _ (Nat.two_pow_pos _)
  have hdiv := Nat.div_add_mod b (2 ^ F.fraction)
  rw [Nat.mul_comm] at hdiv
  cases he : b / 2 ^ F.fraction with
  | zero =>
    refine ⟨0, b % 2 ^ F.fraction, ?_, ?_, .inl rfl⟩
    · rw [he] at hdiv
      omega
    · rw [Nat.pow_succ]
      omega
  | succ e =>
    refine ⟨e, 2 ^ F.fraction + b % 2 ^ F.fraction, ?_, ?_, .inr (Nat.le_add_right _ _)⟩
    · rw [he, Nat.succ_mul] at hdiv
      omega
    · rw [Nat.pow_succ]
      omega

theorem units_strictMono : StrictMono F.units := by
  refine strictMono_nat_of_lt_succ fun b => ?_
  obtain ⟨s, n, rfl, hn, hs⟩ := F.exists_steps b
  rw [Nat.add_assoc, F.units_at (Nat.le_of_lt hn) hs,
    F.units_at hn (hs.imp_right Nat.le_succ_of_le)]
  exact Nat.mul_lt_mul_of_pos_right (Nat.lt_succ_self n) (Nat.two_pow_pos s)

theorem least_pos : (0 : ℚ) < 2 ^ F.least := zpow_pos (by norm_num) _

theorem value_strictMono : StrictMono F.value := by
  intro b b' h
  have hunits : (F.units b : ℚ) < F.units b' := by exact_mod_cast F.units_strictMono h
  exact mul_lt_mul_of_pos_right hunits F.least_pos

/-- One unit in the last place, `s` steps up the exponents. -/
def ulp (s : Nat) : ℚ := 2 ^ (F.least + s)

theorem value_at {s n : Nat} (hn : n ≤ 2 ^ (F.fraction + 1)) (hs : s = 0 ∨ 2 ^ F.fraction ≤ n) :
    F.value (s * 2 ^ F.fraction + n) = n * F.ulp s := by
  rw [value, F.units_at hn hs, ulp, zpow_add₀ (by norm_num), zpow_natCast]
  push_cast
  ring

/-! ## 2. Rounding to nearest -/

/-- **Rounding to nearest, ties to even**: from half a unit above the greatest finite number on
the result is infinity, and below it no finite number is nearer, nor as near unless the result is
even. -/
structure Rounds (q : ℚ) (bits : Nat) : Prop where
  range : bits ≤ F.infinity
  overflow : bits = F.infinity ↔ F.overflow ≤ q
  nearest : bits < F.infinity → ∀ b, b < F.infinity →
    |q - F.value bits| ≤ |q - F.value b|
  even : bits < F.infinity → ∀ b, b < F.infinity → b ≠ bits →
    |q - F.value b| = |q - F.value bits| → bits % 2 = 0

variable {F}

/-- Numbers past the greatest finite one. -/
theorem rounds_infinity {q : ℚ} (hq : F.value F.infinity ≤ q) : F.Rounds q F.infinity where
  range := Nat.le_refl _
  overflow := by
    have hmax : F.value (F.infinity - 1) ≤ F.value F.infinity :=
      F.value_strictMono.monotone (Nat.sub_le _ _)
    refine iff_of_true rfl ?_
    rw [BinaryFormat.overflow]
    linarith
  nearest h := absurd h (Nat.lt_irrefl _)
  even h := absurd h (Nat.lt_irrefl _)

/-- **Between two neighbours** the nearer one is the nearest. -/
theorem rounds_between {q : ℚ} {b : Nat} (hb : b < F.infinity) (hlo : F.value b ≤ q)
    (hhi : q < F.value (b + 1)) {up : Prop} [Decidable up]
    (hup : up ↔ F.value (b + 1) - q < q - F.value b ∨
      F.value (b + 1) - q = q - F.value b ∧ b % 2 = 1)
    (htop : F.infinity % 2 = 0) : F.Rounds q (b + if up then 1 else 0) := by
  have hbelow : ∀ c, c ≤ b → F.value c ≤ F.value b := fun c hc => F.value_strictMono.monotone hc
  have habove : ∀ c, b < c → F.value (b + 1) ≤ F.value c :=
    fun c hc => F.value_strictMono.monotone hc
  by_cases hchoice : up
  · rw [if_pos hchoice]
    have hnear := hup.mp hchoice
    have hle : F.value (b + 1) - q ≤ q - F.value b := by
      rcases hnear with h | h
      · exact le_of_lt h
      · exact le_of_eq h.1
    refine ⟨hb, ⟨fun heq => ?_, fun hover => ?_⟩, fun hfin c hc => ?_, fun hfin c hc hne htie => ?_⟩
    · rw [BinaryFormat.overflow, ← heq, Nat.add_sub_cancel]
      linarith
    · by_contra hne
      have hlt : b + 1 ≤ F.infinity - 1 := by omega
      have hmax : F.value (b + 1) ≤ F.value (F.infinity - 1) := F.value_strictMono.monotone hlt
      have hinf : F.value (F.infinity - 1) ≤ F.value F.infinity :=
        F.value_strictMono.monotone (Nat.sub_le _ _)
      rw [BinaryFormat.overflow] at hover
      linarith
    · rw [abs_of_neg (by linarith : q - F.value (b + 1) < 0)]
      rcases Nat.lt_or_ge b c with hcb | hcb
      · have hc' := habove c hcb
        rw [abs_of_neg (by linarith)]
        linarith
      · have hc' := hbelow c hcb
        rw [abs_of_nonneg (by linarith)]
        linarith
    · rw [abs_of_neg (by linarith : q - F.value (b + 1) < 0)] at htie
      rcases Nat.lt_or_ge b c with hcb | hcb
      · -- only the neighbour itself is as near from above
        have hc' : F.value (b + 1) < F.value c := F.value_strictMono (by omega)
        rw [abs_of_neg (by linarith)] at htie
        linarith
      · have hc' := hbelow c hcb
        rw [abs_of_nonneg (by linarith)] at htie
        rcases hnear with h | h
        · linarith
        · omega
  · rw [if_neg hchoice, Nat.add_zero]
    have hfar := fun h => hchoice (hup.mpr h)
    have hle : q - F.value b ≤ F.value (b + 1) - q := by
      by_contra h
      exact hfar (.inl (not_le.mp h))
    refine ⟨Nat.le_of_lt hb, ⟨fun heq => ?_, fun hover => ?_⟩, fun hfin c hc => ?_,
      fun hfin c hc hne htie => ?_⟩
    · omega
    · exfalso
      rw [BinaryFormat.overflow] at hover
      rcases Nat.lt_or_ge (b + 1) F.infinity with hlt | hge
      · have hmax : F.value (b + 1) ≤ F.value (F.infinity - 1) :=
          F.value_strictMono.monotone (by omega)
        have hinf : F.value (F.infinity - 1) ≤ F.value F.infinity :=
          F.value_strictMono.monotone (Nat.sub_le _ _)
        linarith
      · -- the greatest finite number is odd, so at half a unit above it the choice is infinity
        have heq : b + 1 = F.infinity := by omega
        rw [← heq, Nat.add_sub_cancel] at hover
        exact hfar (.inr ⟨by linarith, by omega⟩)
    · rw [abs_of_nonneg (by linarith : 0 ≤ q - F.value b)]
      rcases Nat.lt_or_ge b c with hcb | hcb
      · have hc' := habove c hcb
        rw [abs_of_neg (by linarith)]
        linarith
      · have hc' := hbelow c hcb
        rw [abs_of_nonneg (by linarith)]
        linarith
    · rw [abs_of_nonneg (by linarith : 0 ≤ q - F.value b)] at htie
      rcases Nat.lt_or_ge b c with hcb | hcb
      · have hc' := habove c hcb
        rw [abs_of_neg (by linarith)] at htie
        by_contra hodd
        exact hfar (.inr ⟨by linarith, by omega⟩)
      · have hc' : F.value c < F.value b := F.value_strictMono (by omega)
        rw [abs_of_nonneg (by linarith)] at htie
        linarith

/-! ## 3. Rounding by shifting -/

/-- `m` without its last `d` bits, and one more where these are more than half, or half and the
rest is odd. -/
def roundedShift (m d : Nat) : Nat :=
  m / 2 ^ d +
    if 2 ^ d < 2 * (m % 2 ^ d) ∨ 2 ^ d = 2 * (m % 2 ^ d) ∧ m / 2 ^ d % 2 = 1 then 1 else 0

/-- The same by the first bit that is dropped and whether any bit below it is set. -/
theorem roundedShift_succ (m d : Nat) :
    roundedShift m (d + 1) = m / 2 ^ (d + 1) +
      if m / 2 ^ d % 2 ≠ 0 ∧ (m % 2 ^ d ≠ 0 ∨ m / 2 ^ (d + 1) % 2 ≠ 0) then 1 else 0 := by
  have hmod : m % 2 ^ (d + 1) = m % 2 ^ d + 2 ^ d * (m / 2 ^ d % 2) := by
    rw [Nat.pow_succ, Nat.mod_mul]
  have hlow : m % 2 ^ d < 2 ^ d := Nat.mod_lt _ (Nat.two_pow_pos d)
  have hhalf : 2 ^ (d + 1) = 2 * 2 ^ d := Nat.pow_succ'
  rw [roundedShift]
  congr 1
  refine if_congr ?_ rfl rfl
  rcases (by omega : m / 2 ^ d % 2 = 0 ∨ m / 2 ^ d % 2 = 1) with hguard | hguard
  · rw [hmod, hguard, hhalf]
    omega
  · rw [hmod, hguard, hhalf]
    omega

theorem ulp_eq (d s : Nat) : F.ulp s = (2 ^ d : Nat) * (2 : ℚ) ^ (F.least + s - d) := by
  rw [ulp, Nat.cast_pow, Nat.cast_ofNat, ← zpow_natCast, ← zpow_add₀ (by norm_num)]
  congr 1
  ring

/-- A number and its last bits. -/
theorem shifted_value (m d s : Nat) :
    (m : ℚ) * 2 ^ (F.least + s - d) =
      (m / 2 ^ d : Nat) * F.ulp s + (m % 2 ^ d : Nat) * 2 ^ (F.least + s - d) := by
  have hsplit : (m : ℚ) = (2 ^ d : Nat) * (m / 2 ^ d : Nat) + (m % 2 ^ d : Nat) := by
    exact_mod_cast (Nat.div_add_mod m (2 ^ d)).symm
  rw [F.ulp_eq d]
  nth_rewrite 1 [hsplit]
  ring

/-- The fraction has bits, so adding to the exponent field keeps the last bit. -/
theorem steps_mod_two (s n : Nat) : (s * 2 ^ F.fraction + n) % 2 = n % 2 := by
  obtain ⟨f, hf⟩ : ∃ f, F.fraction = f + 1 := ⟨F.fraction - 1, by have := F.fraction_pos; omega⟩
  rw [hf, Nat.pow_succ, ← Nat.mul_assoc]
  omega

/-- **Rounding is a shift.** -/
theorem rounds_roundedShift {m d s : Nat} (hm : m / 2 ^ d < 2 ^ (F.fraction + 1))
    (hs : s = 0 ∨ 2 ^ F.fraction ≤ m / 2 ^ d) (htop : s + 2 ≤ F.top) :
    F.Rounds (m * 2 ^ (F.least + s - d)) (s * 2 ^ F.fraction + roundedShift m d) := by
  have hlast : (0 : ℚ) < 2 ^ (F.least + s - d) := zpow_pos (by norm_num) _
  have hlow : F.value (s * 2 ^ F.fraction + m / 2 ^ d) = (m / 2 ^ d : Nat) * F.ulp s :=
    F.value_at (Nat.le_of_lt hm) hs
  have hhigh : F.value (s * 2 ^ F.fraction + m / 2 ^ d + 1) =
      (m / 2 ^ d : Nat) * F.ulp s + F.ulp s := by
    rw [Nat.add_assoc, F.value_at hm (hs.imp_right Nat.le_succ_of_le)]
    push_cast
    ring
  have hvalue := shifted_value (F := F) m d s
  have hmod : m % 2 ^ d < 2 ^ d := Nat.mod_lt _ (Nat.two_pow_pos d)
  -- the distances to the two neighbours, in units of the last bit that is dropped
  have hdown : m * 2 ^ (F.least + s - d) - F.value (s * 2 ^ F.fraction + m / 2 ^ d) =
      (m % 2 ^ d : Nat) * 2 ^ (F.least + s - d) := by
    rw [hlow, hvalue]
    ring
  have hup : F.value (s * 2 ^ F.fraction + m / 2 ^ d + 1) - m * 2 ^ (F.least + s - d) =
      ((2 ^ d - m % 2 ^ d : Nat) : ℚ) * 2 ^ (F.least + s - d) := by
    rw [hhigh, hvalue, F.ulp_eq d, Nat.cast_sub (Nat.le_of_lt hmod)]
    ring
  have hless : ∀ a b : Nat, (a : ℚ) * 2 ^ (F.least + s - d) < b * 2 ^ (F.least + s - d) ↔ a < b :=
    fun a b => by rw [mul_lt_mul_iff_left₀ hlast, Nat.cast_lt]
  have hsame : ∀ a b : Nat, (a : ℚ) * 2 ^ (F.least + s - d) = b * 2 ^ (F.least + s - d) ↔ a = b :=
    fun a b => by rw [mul_left_inj' (ne_of_gt hlast), Nat.cast_inj]
  rw [roundedShift, ← Nat.add_assoc]
  refine rounds_between ?_ ?_ ?_ ?_ ?_
  · calc s * 2 ^ F.fraction + m / 2 ^ d
        < s * 2 ^ F.fraction + 2 ^ (F.fraction + 1) := Nat.add_lt_add_left hm _
      _ = (s + 2) * 2 ^ F.fraction := by ring
      _ ≤ F.infinity := Nat.mul_le_mul_right _ htop
  · have hnonneg : (0 : ℚ) ≤ (m % 2 ^ d : Nat) * 2 ^ (F.least + s - d) := by positivity
    linarith
  · have hpos : (0 : ℚ) < ((2 ^ d - m % 2 ^ d : Nat) : ℚ) * 2 ^ (F.least + s - d) := by
      have hrest : 0 < 2 ^ d - m % 2 ^ d := Nat.sub_pos_of_lt hmod
      have hcast : (0 : ℚ) < (2 ^ d - m % 2 ^ d : Nat) := by exact_mod_cast hrest
      positivity
    linarith
  · rw [hup, hdown, hless, hsame, steps_mod_two]
    omega
  · rw [infinity, ← Nat.add_zero (F.top * 2 ^ F.fraction), steps_mod_two]

end BinaryFormat

end TeamyBend.Library
