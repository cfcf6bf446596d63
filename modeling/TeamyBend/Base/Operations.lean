/-
# The rest of the operations on words and naturals

The operations of `base.bend` that the native backends replace and that the division, the decimal
text and the maps did not need: the remaining comparison, the bitwise operations, the shifts by a
number, and `Nat.add`, `Nat.double` and `Nat.mul` on numbers that are known.

A word is a 32-bit machine word (`U32.word`), and every operation is proved to compute that of the
machine.
-/
import TeamyBend.Base.DecimalText

namespace TeamyBend.Base

/-! ## 1. The operations -/

/-- `Cmp.is_gt`. -/
def Cmp.isGt : Cmp → Bool
  | LT => false
  | EQ => false
  | GT => true

/-- `Bool.or`. -/
def boolOr : Bool → Bool → Bool
  | false, b => b
  | true, _ => true

/-- `Bool.xor`. -/
def boolXor : Bool → Bool → Bool
  | false, b => b
  | true, b => Bool.not b

namespace Finite

/-- `Nat.add`. -/
def natAdd : Nat → Nat → Nat
  | 0, b => b
  | p + 1, b => 1 + natAdd p b

/-- `Nat.double`. -/
def natDouble : Nat → Nat
  | 0 => 0
  | p + 1 => 2 + natDouble p

/-- `Nat.mul`. -/
def natMul : Nat → Nat → Nat
  | 0, _ => 0
  | p + 1, b => natAdd b (natMul p b)

@[simp] theorem natAdd_eq (a b : Nat) : natAdd a b = a + b := by
  induction a with
  | zero => rw [natAdd, Nat.zero_add]
  | succ p ih =>
    rw [natAdd, ih]
    omega

@[simp] theorem natDouble_eq (n : Nat) : natDouble n = n + n := by
  induction n with
  | zero => rfl
  | succ p ih =>
    rw [natDouble, ih]
    omega

@[simp] theorem natMul_eq (a b : Nat) : natMul a b = a * b := by
  induction a with
  | zero => rw [natMul, Nat.zero_mul]
  | succ p ih => rw [natMul, natAdd_eq, ih, Nat.succ_mul, Nat.add_comm]

end Finite

namespace Word

/-- `Word.or`. -/
def or : (n : Nat) → Word n → Word n → Word n
  | 0, _, _ => WNil
  | p + 1, WCon ab at', WCon bb bt => WCon (boolOr ab bb) (or p at' bt)

/-- `Word.to_nat`, with `Nat.double` on numbers. -/
def toFinite : {n : Nat} → Word n → Nat
  | 0, _ => 0
  | _ + 1, WCon false t => Finite.natDouble (toFinite t)
  | _ + 1, WCon true t => 1 + Finite.natDouble (toFinite t)

@[simp] theorem toFinite_eq {n : Nat} (w : Word n) : toFinite w = toNat w := by
  induction w with
  | WNil => rfl
  | WCon b t ih =>
    cases b <;> rw [toFinite, toNat, Finite.natDouble_eq, ih] <;> omega

@[simp] theorem get_or {n : Nat} (a b : Word n) (i : Nat) :
    (or n a b).get i = (a.get i || b.get i) := by
  induction a generalizing i with
  | WNil => cases b; rfl
  | WCon x t ih =>
    cases b with
    | WCon y u =>
      cases i with
      | zero => cases x <;> rfl
      | succ i => rw [or, get_wcon_succ, get_wcon_succ, get_wcon_succ, ih]

/-- The bits of both words. -/
theorem toNat_or {n : Nat} (a b : Word n) : toNat (or n a b) = toNat a ||| toNat b := by
  apply Nat.eq_of_testBit_eq
  intro i
  rw [Nat.testBit_lor, testBit_toNat, testBit_toNat, testBit_toNat, get_or]

theorem toNat_xor {n : Nat} (a b : Word n) : toNat (xor n a b) = toNat a ^^^ toNat b := by
  apply Nat.eq_of_testBit_eq
  intro i
  rw [Nat.testBit_xor, testBit_toNat, testBit_toNat, testBit_toNat, get_xor]

end Word

namespace U32

/-- `U32.or`. -/
def or (a b : U32) : U32 := ⟨Word.or 32 a.data b.data⟩

/-- `U32.not`. -/
def not (a : U32) : U32 := ⟨Word.not 32 a.data⟩

/-- `U32.shln`. -/
def shln (a : U32) : Nat → U32
  | 0 => a
  | p + 1 => shl (shln a p)

/-- `U32.is_gt`. -/
def isGt (a b : U32) : Bool := (cmp a b).isGt

/-- `U32.to_nat`. -/
def toFinite (a : U32) : Nat := a.data.toFinite

/-! ## 2. Machine words -/

/-- The machine word of a word. -/
def word (a : U32) : UInt32 := .ofNat a.toNat

@[simp] theorem toNat_word (a : U32) : a.word.toNat = a.toNat := by
  rw [word, UInt32.toNat_ofNat', Nat.mod_eq_of_lt a.toNat_lt]

section Operations

variable (a b : U32)

/-- A word whose number is that of a machine word. -/
theorem word_eq {a : U32} {w : UInt32} (h : a.toNat = w.toNat) : a.word = w :=
  UInt32.toNat_inj.mp ((toNat_word a).trans h)

/-- The sum of the host's words. -/
theorem word_add : (add a b).word = a.word + b.word := by
  refine word_eq ?_
  rw [toNat_add, UInt32.toNat_add, toNat_word, toNat_word]

/-- Their difference. -/
theorem word_sub : (sub a b).word = a.word - b.word := by
  refine word_eq ?_
  rw [toNat_sub, UInt32.toNat_sub, toNat_word, toNat_word]

/-- Their product. -/
theorem word_mul : (mul a b).word = a.word * b.word := by
  refine word_eq ?_
  rw [toNat_mul, UInt32.toNat_mul, toNat_word, toNat_word]

theorem word_and : (and a b).word = a.word &&& b.word := by
  refine word_eq ?_
  rw [toNat_and, UInt32.toNat_and, toNat_word, toNat_word]

theorem word_or : (or a b).word = a.word ||| b.word := by
  refine word_eq ?_
  rw [UInt32.toNat_or, toNat_word, toNat_word]
  exact Word.toNat_or a.data b.data

theorem word_xor : (xor a b).word = a.word ^^^ b.word := by
  refine word_eq ?_
  rw [UInt32.toNat_xor, toNat_word, toNat_word]
  exact Word.toNat_xor a.data b.data

theorem word_not : (not a).word = ~~~a.word := by
  refine word_eq ?_
  have hnot : (not a).toNat + a.toNat + 1 = 2 ^ 32 := Word.toNat_not a.data
  rw [UInt32.toNat_not, toNat_word, UInt32.size]
  omega

theorem word_inc : (inc a).word = a.word + 1 := by
  refine word_eq ?_
  rw [toNat_inc, UInt32.toNat_add, toNat_word]
  rfl

/-- Their quotient, which is zero by zero. -/
theorem word_div : (div a b).word = a.word / b.word := by
  refine word_eq ?_
  rw [toNat_div, UInt32.toNat_div, toNat_word, toNat_word]

/-- Their remainder. -/
theorem word_mod : (mod a b).word = a.word % b.word := by
  refine word_eq ?_
  rw [toNat_mod, UInt32.toNat_mod, toNat_word, toNat_word]

/-- Some shifts to the left. -/
theorem toNat_shln (n : Nat) : (shln a n).toNat = a.toNat * 2 ^ n % 2 ^ 32 := by
  induction n with
  | zero => rw [shln, Nat.pow_zero, Nat.mul_one, Nat.mod_eq_of_lt a.toNat_lt]
  | succ p ih =>
    have hnext : a.toNat * 2 ^ (p + 1) = 2 * (a.toNat * 2 ^ p) := by
      rw [Nat.pow_succ, ← Nat.mul_assoc, Nat.mul_comm]
    rw [shln, toNat_shl, ih, hnext]
    omega

/-- Some shifts to the right. -/
theorem toNat_shrn (n : Nat) : (shrn a n).toNat = a.toNat / 2 ^ n := by
  induction n with
  | zero => rw [shrn, Nat.pow_zero, Nat.div_one]
  | succ p ih => rw [shrn, toNat_shr, ih, Nat.pow_succ, Nat.div_div_eq_div_mul]

/-- A shift by the width of the word or more leaves nothing. -/
theorem word_shln (n : Nat) :
    (shln a n).word = if 32 ≤ n then 0 else a.word <<< UInt32.ofNat n := by
  refine word_eq ?_
  rw [toNat_shln]
  split
  · rename_i hlarge
    obtain ⟨k, rfl⟩ := Nat.exists_eq_add_of_le hlarge
    rw [Nat.pow_add, Nat.mul_left_comm, Nat.mul_mod_right]
    rfl
  · rename_i hsmall
    have hn : (UInt32.ofNat n).toNat = n := by
      rw [UInt32.toNat_ofNat', Nat.mod_eq_of_lt (by omega)]
    rw [UInt32.toNat_shiftLeft, toNat_word, hn, Nat.mod_eq_of_lt (by omega : n < 32),
      Nat.shiftLeft_eq]

/-- From 32 on, nothing is left. -/
theorem word_shrn (n : Nat) :
    (shrn a n).word = if 32 ≤ n then 0 else a.word >>> UInt32.ofNat n := by
  refine word_eq ?_
  rw [toNat_shrn]
  split
  · rename_i hlarge
    rw [Nat.div_eq_of_lt (Nat.lt_of_lt_of_le a.toNat_lt (Nat.pow_le_pow_right (by decide) hlarge))]
    rfl
  · rename_i hsmall
    have hn : (UInt32.ofNat n).toNat = n := by
      rw [UInt32.toNat_ofNat', Nat.mod_eq_of_lt (by omega)]
    rw [UInt32.toNat_shiftRight, toNat_word, hn, Nat.mod_eq_of_lt (by omega : n < 32),
      Nat.shiftRight_eq_div_pow]

theorem word_shl : (shl a).word = a.word <<< 1 := word_shln a 1

theorem word_shr : (shr a).word = a.word >>> 1 := word_shrn a 1

/-- A number is cut to a word. -/
theorem word_fromNat (n : Nat) : (fromNat n).word = UInt32.ofNat n := by
  refine word_eq ?_
  rw [toNat_fromNat, UInt32.toNat_ofNat']

/-! ## 3. Comparisons -/

/-- The order of numbers. -/
theorem cmp_eq : cmp a b =
    if a.toNat < b.toNat then .LT else if a.toNat = b.toNat then .EQ else .GT := by
  have hlt : cmp a b = .LT ↔ a.toNat < b.toNat := Word.cmp_lt_iff a.data b.data
  have heq : cmp a b = .EQ ↔ a.toNat = b.toNat := by
    rw [cmp, Word.cmp_eq_iff]
    exact ⟨congrArg Word.toNat, Word.toNat_inj⟩
  cases hcmp : cmp a b <;> simp only [hcmp, reduceCtorEq, true_iff, false_iff] at hlt heq
  · rw [if_pos hlt]
  · rw [if_neg hlt, if_pos heq]
  · rw [if_neg hlt, if_neg heq]

/-- The comparison is that of the host's words. -/
theorem isLt_eq : isLt a b = decide (a.word < b.word) := by
  rw [u32IsLt_eq, Bool.eq_iff_iff, decide_eq_true_iff, decide_eq_true_iff, UInt32.lt_iff_toNat_lt,
    toNat_word, toNat_word]

theorem isLe_eq : isLe a b = decide (a.word ≤ b.word) := by
  rw [u32IsLe_eq, Bool.eq_iff_iff, decide_eq_true_iff, decide_eq_true_iff, UInt32.le_iff_toNat_le,
    toNat_word, toNat_word]

theorem isGt_eq : isGt a b = decide (b.word < a.word) := by
  rw [Bool.eq_iff_iff, decide_eq_true_iff, UInt32.lt_iff_toNat_lt, toNat_word, toNat_word, isGt,
    cmp_eq]
  split
  · exact iff_of_false (by decide) (by omega)
  · split
    · exact iff_of_false (by decide) (by omega)
    · exact iff_of_true rfl (by omega)

theorem isGe_eq : isGe a b = decide (b.word ≤ a.word) := by
  rw [Bool.eq_iff_iff, isGe_iff, decide_eq_true_iff, UInt32.le_iff_toNat_le, toNat_word, toNat_word]

/-- A word is known by its machine word. -/
theorem word_inj : a.word = b.word ↔ a = b :=
  ⟨fun h => toNat_inj (by rw [← toNat_word a, h, toNat_word]), fun h => by rw [h]⟩

theorem isEq_eq : isEq a b = (a.word == b.word) := by
  rw [Bool.eq_iff_iff, isEq_iff, beq_iff_eq, word_inj]

theorem isZero_eq : isZero a = (a.word == 0) := by
  rw [isZero, isEq_eq]
  rfl

end Operations

end U32

/-- The comparison of numbers has three answers. -/
theorem natCmp_eq (a b : Nat) :
    natCmp a b = if a < b then .LT else if a = b then .EQ else .GT := by
  fun_induction natCmp a b with
  | case1 => rfl
  | case2 bp => rw [if_pos (Nat.succ_pos bp)]
  | case3 ap => rw [if_neg (Nat.not_lt_zero _), if_neg (Nat.succ_ne_zero ap)]
  | case4 ap bp ih => simp only [ih, Nat.succ_lt_succ_iff, Nat.succ_inj]

/-- A division by zero is zero, and leaves the number. -/
theorem natDivmod_eq_all (a b : Nat) : natDivmod a b = (a / b, a % b) := by
  cases b with
  | zero => rw [Nat.div_zero, Nat.mod_zero]; rfl
  | succ bp => exact natDivmod_eq a _ (Nat.succ_pos bp)

end TeamyBend.Base
