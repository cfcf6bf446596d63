/-
# Arithmetic of the bundled Base

The arithmetic of `Word(n)` and `U32` as `base.bend` programs it: a ripple-carry adder with a
complement flag, multiplication by shifting and adding, and restoring division that threads a
carry-out bit past the width of the remainder.

`Word.toNat` reads a word as a number, the least significant bit first.  Every operation is proved
to compute the corresponding one modulo `2 ^ n`, by induction on the width: the adder keeps
`sum + 2 * carry`, the multiplication keeps `acc + a * b`, and the division keeps the quotient and
the remainder of the bits it has read.
-/
import TeamyBend.Base.Word
import Mathlib.Tactic.Ring
import Mathlib.Data.Nat.Bitwise

namespace TeamyBend.Base

/-! ## 1. The operations -/

/-- `Cmp.is_ge`. -/
def Cmp.isGe : Cmp → Bool
  | LT => false
  | EQ => true
  | GT => true

/-- `Bool.full_add`: the sum bit and the carry. -/
def fullAdd : Bool → Bool → Bool → Bool × Bool
  | false, false, false => (false, false)
  | false, false, true => (true, false)
  | false, true, false => (true, false)
  | false, true, true => (false, true)
  | true, false, false => (true, false)
  | true, false, true => (false, true)
  | true, true, false => (false, true)
  | true, true, true => (true, true)

namespace Word

/-- `Word.shl.put`. -/
def shlPut : (n : Nat) → Bool → Word n → Word n
  | 0, _, _ => WNil
  | p + 1, c, WCon b t => WCon c (shlPut p b t)

/-- `Word.shl`. -/
def shl : (n : Nat) → Word n → Word n
  | 0, _ => WNil
  | p + 1, WCon b t => WCon false (shlPut p b t)

/-- `Word.shl.out.con`. -/
def shlOutCon {p : Nat} (c : Bool) (r : Bool × Word p) : Bool × Word (p + 1) := (r.1, WCon c r.2)

/-- `Word.shl.out`: the bit that leaves at the top, and the shifted word. -/
def shlOut : (n : Nat) → Bool → Word n → Bool × Word n
  | 0, c, _ => (c, WNil)
  | p + 1, c, WCon b t => shlOutCon c (shlOut p b t)

/-- `Word.not`. -/
def not : (n : Nat) → Word n → Word n
  | 0, _ => WNil
  | p + 1, WCon b t => WCon (Bool.not b) (not p t)

/-- `Word.inc`. -/
def inc : (n : Nat) → Word n → Word n
  | 0, _ => WNil
  | _ + 1, WCon false t => WCon true t
  | p + 1, WCon true t => WCon false (inc p t)

/-- `Word.adc`: add with the carry `c`, the second word complemented when `f` is set. -/
def adc : (n : Nat) → Word n → Word n → Bool → Bool → Word n
  | 0, _, _, _, _ => WNil
  | p + 1, WCon ab at', WCon bb bt, false, c =>
    WCon (fullAdd ab bb c).1 (adc p at' bt false (fullAdd ab bb c).2)
  | p + 1, WCon ab at', WCon bb bt, true, c =>
    WCon (fullAdd ab (Bool.not bb) c).1 (adc p at' bt true (fullAdd ab (Bool.not bb) c).2)

/-- `Word.add`. -/
def add (n : Nat) (a b : Word n) : Word n := adc n a b false false

/-- `Word.sub`. -/
def sub (n : Nat) (a b : Word n) : Word n := adc n a b true true

/-- `Word.mul.go`. -/
def mulGo (n : Nat) : (m : Nat) → Word m → Word n → Word n → Word n
  | 0, _, _, acc => acc
  | mp + 1, WCon false at', b, acc => mulGo n mp at' (shl n b) acc
  | mp + 1, WCon true at', b, acc => mulGo n mp at' (shl n b) (add n acc b)

/-- `Word.mul`. -/
def mul (n : Nat) (a b : Word n) : Word n := mulGo n n a b (zero n)

/-- `Word.to_nat`. -/
def toNat : {n : Nat} → Word n → Nat
  | 0, _ => 0
  | _ + 1, WCon false t => 2 * toNat t
  | _ + 1, WCon true t => 1 + 2 * toNat t

end Word

namespace U32

/-- `U32.inc`. -/
def inc (a : U32) : U32 := ⟨Word.inc 32 a.data⟩

/-- `U32.add`. -/
def add (a b : U32) : U32 := ⟨Word.add 32 a.data b.data⟩

/-- `U32.sub`. -/
def sub (a b : U32) : U32 := ⟨Word.sub 32 a.data b.data⟩

/-- `U32.mul`. -/
def mul (a b : U32) : U32 := ⟨Word.mul 32 a.data b.data⟩

/-- `U32.shl`. -/
def shl (a : U32) : U32 := ⟨Word.shl 32 a.data⟩

/-- `U32.is_ge`. -/
def isGe (a b : U32) : Bool := (cmp a b).isGe

/-- `U32.divmod.go.fin`. -/
def divmodGoFin {p : Nat} (q : Word p) (s b : U32) : Bool → Word (p + 1) × U32
  | true => (.WCon true q, sub s b)
  | false => (.WCon false q, s)

/-- `U32.divmod.go.shl`. -/
def divmodGoShl {p : Nat} (q : Word p) (b : U32) (ts : Bool × Word 32) : Word (p + 1) × U32 :=
  divmodGoFin q ⟨ts.2⟩ b (ts.1 || isGe ⟨ts.2⟩ b)

/-- `U32.divmod.go.rec`. -/
def divmodGoRec {p : Nat} (a0 : Bool) (b : U32) (qr : Word p × U32) : Word (p + 1) × U32 :=
  divmodGoShl qr.1 b (Word.shlOut 32 a0 qr.2.data)

/-- `U32.divmod.go`. -/
def divmodGo : (m : Nat) → Word m → U32 → Word m × U32
  | 0, _, _ => (.WNil, literal 0)
  | p + 1, .WCon a0 hi, b => divmodGoRec a0 b (divmodGo p hi b)

/-- `U32.div.fin`. -/
def divFin (qr : Word 32 × U32) : U32 := ⟨qr.1⟩

/-- `U32.div.if`. -/
def divIf (aw : Word 32) (b : U32) : Bool → U32
  | true => literal 0
  | false => divFin (divmodGo 32 aw b)

/-- `U32.div`. -/
def div (a b : U32) : U32 := divIf a.data b (isZero b)

/-- `U32.mod.fin`. -/
def modFin (qr : Word 32 × U32) : U32 := qr.2

/-- `U32.mod.if`. -/
def modIf (aw : Word 32) (b : U32) : Bool → U32
  | true => ⟨aw⟩
  | false => modFin (divmodGo 32 aw b)

/-- `U32.mod`. -/
def mod (a b : U32) : U32 := modIf a.data b (isZero b)

end U32

/-! ## 2. A word as a number -/

namespace Word

@[simp] theorem toNat_wnil : toNat WNil = 0 := rfl

@[simp] theorem toNat_wcon {p : Nat} (b : Bool) (t : Word p) :
    toNat (WCon b t) = b.toNat + 2 * toNat t := by
  cases b
  · exact (Nat.zero_add _).symm
  · rfl

/-- A word is below the bound of its width. -/
theorem toNat_lt {n : Nat} (w : Word n) : toNat w < 2 ^ n := by
  induction w with
  | WNil => decide
  | WCon b t ih =>
    have hb := Bool.toNat_le b
    rw [toNat_wcon, Nat.pow_succ]
    omega

/-- Words of the same number are equal. -/
theorem toNat_inj {n : Nat} {a b : Word n} (h : toNat a = toNat b) : a = b := by
  induction a with
  | WNil => cases b; rfl
  | WCon x t ih =>
    cases b with
    | WCon y u =>
      rw [toNat_wcon, toNat_wcon] at h
      have hx := Bool.toNat_le x
      have hy := Bool.toNat_le y
      have hbit : x = y := by
        cases x <;> cases y <;> simp only [Bool.toNat_true, Bool.toNat_false] at h ⊢ <;> omega
      have htail : t = u := ih (by omega)
      rw [hbit, htail]

@[simp] theorem toNat_zero (n : Nat) : toNat (zero n) = 0 := by
  induction n with
  | zero => rfl
  | succ p ih => rw [zero, toNat_wcon, ih]; rfl

/-- A literal is cut to its width. -/
theorem toNat_literal (n v : Nat) : toNat (literal n v) = v % 2 ^ n := by
  induction n generalizing v with
  | zero => rw [Nat.pow_zero, Nat.mod_one]; rfl
  | succ p ih =>
    have hbit : (v % 2 == 1).toNat = v % 2 := by
      rcases Nat.mod_two_eq_zero_or_one v with h | h <;> rw [h] <;> rfl
    rw [literal, toNat_wcon, ih, hbit, Nat.pow_succ', Nat.mod_mul]

/-- The bits of the number are those of the word. -/
theorem testBit_toNat {n : Nat} (w : Word n) (i : Nat) : (toNat w).testBit i = w.get i := by
  induction w generalizing i with
  | WNil => simp
  | WCon b t ih =>
    have hval : b.toNat + 2 * toNat t = Nat.bit b (toNat t) := by
      rw [Nat.bit_val, Nat.add_comm]
    rw [toNat_wcon, hval]
    cases i with
    | zero => exact Nat.testBit_bit_zero b (toNat t)
    | succ i => rw [Nat.testBit_bit_succ, ih, get_wcon_succ]

/-! ## 3. What each operation computes -/

theorem toNat_and {n : Nat} (a b : Word n) : toNat (and n a b) = toNat a &&& toNat b := by
  apply Nat.eq_of_testBit_eq
  intro i
  rw [Nat.testBit_land, testBit_toNat, testBit_toNat, testBit_toNat, get_and]

theorem toNat_shrPad {n : Nat} (w : Word n) : toNat (shrPad n w) = toNat w := by
  apply Nat.eq_of_testBit_eq
  intro i
  rw [testBit_toNat, testBit_toNat, get_shrPad]

/-- A shift to the right halves. -/
theorem toNat_shr {n : Nat} (w : Word n) : toNat (shr n w) = toNat w / 2 := by
  cases w with
  | WNil => rfl
  | WCon b t =>
    have hb := Bool.toNat_le b
    rw [shr, toNat_shrPad, toNat_wcon]
    omega

theorem toNat_shlPut {n : Nat} (c : Bool) (w : Word n) :
    toNat (shlPut n c w) = (c.toNat + 2 * toNat w) % 2 ^ n := by
  induction w generalizing c with
  | WNil => rw [Nat.pow_zero, Nat.mod_one]; rfl
  | WCon b t ih =>
    have hc := Bool.toNat_le c
    rw [shlPut, toNat_wcon, toNat_wcon, ih, Nat.pow_succ', Nat.mod_mul]
    have hlow : (c.toNat + 2 * (b.toNat + 2 * toNat t)) % 2 = c.toNat := by omega
    have hhigh : (c.toNat + 2 * (b.toNat + 2 * toNat t)) / 2 = b.toNat + 2 * toNat t := by omega
    rw [hlow, hhigh]

/-- A shift to the left doubles, up to the width. -/
theorem toNat_shl {n : Nat} (w : Word n) : toNat (shl n w) = 2 * toNat w % 2 ^ n := by
  cases w with
  | WNil => rfl
  | WCon b t =>
    rw [shl, toNat_wcon, toNat_wcon, toNat_shlPut, Nat.pow_succ', Nat.mul_mod_mul_left]
    exact Nat.zero_add _

/-- The bit that leaves stands above the shifted word. -/
theorem toNat_shlOut {n : Nat} (c : Bool) (w : Word n) :
    (shlOut n c w).1.toNat * 2 ^ n + toNat (shlOut n c w).2 = c.toNat + 2 * toNat w := by
  induction w generalizing c with
  | WNil => simp [shlOut]
  | @WCon p b t ih =>
    have hstep := ih b
    rw [shlOut, shlOutCon, toNat_wcon, toNat_wcon, Nat.pow_succ]
    have hexp : (shlOut p b t).1.toNat * (2 ^ p * 2) =
        2 * ((shlOut p b t).1.toNat * 2 ^ p) := by ring
    simp only [hexp]
    omega

/-- The next word, up to the width. -/
theorem toNat_inc {n : Nat} (w : Word n) : toNat (inc n w) = (toNat w + 1) % 2 ^ n := by
  induction w with
  | WNil => rfl
  | @WCon p b t ih =>
    have ht := toNat_lt t
    cases b with
    | false =>
      rw [inc, toNat_wcon, toNat_wcon, Nat.mod_eq_of_lt]
      · simp only [Bool.toNat_true, Bool.toNat_false]; omega
      · simp only [Bool.toNat_false, Nat.pow_succ]; omega
    | true =>
      have hval : Bool.toNat true + 2 * toNat t + 1 = 2 * (toNat t + 1) := by
        simp only [Bool.toNat_true]; omega
      rw [inc, toNat_wcon, toNat_wcon, ih, hval, Nat.pow_succ', Nat.mul_mod_mul_left]
      exact Nat.zero_add _

/-- One bit of a sum and its carry. -/
theorem toNat_fullAdd (a b c : Bool) :
    (fullAdd a b c).1.toNat + 2 * (fullAdd a b c).2.toNat = a.toNat + b.toNat + c.toNat := by
  cases a <;> cases b <;> cases c <;> decide

/-- **The sum with a carry**, up to the width. -/
theorem toNat_adc {n : Nat} (a b : Word n) (c : Bool) :
    toNat (adc n a b false c) = (toNat a + toNat b + c.toNat) % 2 ^ n := by
  induction a generalizing c with
  | WNil => rw [Nat.pow_zero, Nat.mod_one]; rfl
  | WCon x t ih =>
    cases b with
    | WCon y u =>
      have hsum := toNat_fullAdd x y c
      have hs := Bool.toNat_le (fullAdd x y c).1
      -- The carry is what the sum bit leaves of the three bits, halved.
      have hlow : (x.toNat + 2 * toNat t + (y.toNat + 2 * toNat u) + c.toNat) % 2 =
          (fullAdd x y c).1.toNat := by omega
      have hhigh : (x.toNat + 2 * toNat t + (y.toNat + 2 * toNat u) + c.toNat) / 2 =
          toNat t + toNat u + (fullAdd x y c).2.toNat := by omega
      rw [adc, toNat_wcon, toNat_wcon, toNat_wcon, ih, Nat.pow_succ', Nat.mod_mul, hlow, hhigh]

/-- The complement flag adds the complemented word. -/
theorem adc_true {n : Nat} (a b : Word n) (c : Bool) :
    adc n a b true c = adc n a (not n b) false c := by
  induction a generalizing c with
  | WNil => cases b; rfl
  | WCon x t ih =>
    cases b with
    | WCon y u => rw [adc, not, adc, ih]

/-- The complement is what is left to the largest word. -/
theorem toNat_not {n : Nat} (w : Word n) : toNat (not n w) + toNat w + 1 = 2 ^ n := by
  induction w with
  | WNil => rfl
  | WCon b t ih =>
    rw [not, toNat_wcon, toNat_wcon, Nat.pow_succ, ← ih]
    cases b <;> simp only [Bool.not_true, Bool.not_false, Bool.toNat_true, Bool.toNat_false] <;>
      omega

theorem toNat_add {n : Nat} (a b : Word n) : toNat (add n a b) = (toNat a + toNat b) % 2 ^ n := by
  rw [add, toNat_adc, Bool.toNat_false, Nat.add_zero]

/-- A difference adds the complement. -/
theorem toNat_sub {n : Nat} (a b : Word n) :
    toNat (sub n a b) = (2 ^ n - toNat b + toNat a) % 2 ^ n := by
  have hnot := toNat_not b
  rw [sub, adc_true, toNat_adc, Bool.toNat_true]
  congr 1
  omega

/-- The accumulator gains `a * b` while `a` is read and `b` is doubled. -/
theorem toNat_mulGo {n m : Nat} (a : Word m) (b acc : Word n) :
    toNat (mulGo n m a b acc) = (toNat acc + toNat a * toNat b) % 2 ^ n := by
  induction a generalizing b acc with
  | WNil =>
    rw [mulGo, toNat_wnil, Nat.zero_mul, Nat.add_zero, Nat.mod_eq_of_lt (toNat_lt acc)]
  | WCon x t ih =>
    cases x with
    | false =>
      rw [mulGo, ih, toNat_shl, toNat_wcon]
      have hval : toNat acc + (Bool.toNat false + 2 * toNat t) * toNat b =
          toNat acc + toNat t * (2 * toNat b) := by
        rw [Bool.toNat_false]; ring
      rw [hval]
      simp only [Nat.add_mod, Nat.mul_mod, Nat.mod_mod]
    | true =>
      rw [mulGo, ih, toNat_shl, toNat_add, toNat_wcon]
      have hval : toNat acc + (Bool.toNat true + 2 * toNat t) * toNat b =
          toNat acc + toNat b + toNat t * (2 * toNat b) := by
        rw [Bool.toNat_true]; ring
      rw [hval]
      simp only [Nat.add_mod, Nat.mul_mod, Nat.mod_mod]

theorem toNat_mul {n : Nat} (a b : Word n) : toNat (mul n a b) = toNat a * toNat b % 2 ^ n := by
  rw [mul, toNat_mulGo, toNat_zero, Nat.zero_add]

/-- Words are compared as their numbers. -/
theorem cmp_lt_iff {n : Nat} (a b : Word n) : cmp n a b = .LT ↔ toNat a < toNat b := by
  induction a with
  | WNil => cases b; decide
  | WCon x t ih =>
    cases b with
    | WCon y u =>
      have hx := Bool.toNat_le x
      have hy := Bool.toNat_le y
      have hlt := ih u
      have heq := cmp_eq_iff t u
      rw [cmp, toNat_wcon, toNat_wcon]
      cases hc : cmp _ t u with
      | LT =>
        have : toNat t < toNat u := hlt.mp hc
        simp only [cmpFin, true_iff]
        omega
      | EQ =>
        have htu : t = u := heq.mp hc
        rw [htu, cmpFin]
        cases x <;> cases y <;> simp [boolCmp]
      | GT =>
        have hge : ¬ toNat t < toNat u := fun h => by simp [hlt.mpr h] at hc
        have hne : toNat t ≠ toNat u := fun h => by simp [heq.mpr (toNat_inj h)] at hc
        simp only [cmpFin, reduceCtorEq, false_iff]
        omega

end Word

namespace U32

/-- The number a `U32` stands for. -/
def toNat (a : U32) : Nat := a.data.toNat

theorem toNat_lt (a : U32) : a.toNat < 2 ^ 32 := Word.toNat_lt a.data

theorem toNat_inj {a b : U32} (h : a.toNat = b.toNat) : a = b :=
  congrArg U32.mk (Word.toNat_inj h)

theorem toNat_literal (v : Nat) : (literal v).toNat = v % 2 ^ 32 := Word.toNat_literal 32 v

theorem toNat_inc (a : U32) : (inc a).toNat = (a.toNat + 1) % 2 ^ 32 := Word.toNat_inc a.data

theorem toNat_add (a b : U32) : (add a b).toNat = (a.toNat + b.toNat) % 2 ^ 32 :=
  Word.toNat_add a.data b.data

theorem toNat_sub (a b : U32) : (sub a b).toNat = (2 ^ 32 - b.toNat + a.toNat) % 2 ^ 32 :=
  Word.toNat_sub a.data b.data

theorem toNat_mul (a b : U32) : (mul a b).toNat = a.toNat * b.toNat % 2 ^ 32 :=
  Word.toNat_mul a.data b.data

theorem toNat_shl (a : U32) : (shl a).toNat = 2 * a.toNat % 2 ^ 32 := Word.toNat_shl a.data

theorem toNat_shr (a : U32) : (shr a).toNat = a.toNat / 2 := Word.toNat_shr a.data

theorem toNat_and (a b : U32) : (and a b).toNat = a.toNat &&& b.toNat :=
  Word.toNat_and a.data b.data

/-- The comparison of the division. -/
theorem isGe_iff (a b : U32) : isGe a b = true ↔ b.toNat ≤ a.toNat := by
  have hlt := Word.cmp_lt_iff a.data b.data
  unfold isGe cmp toNat
  rw [← Nat.not_lt, ← hlt]
  cases Word.cmp 32 a.data b.data <;> decide

/-- Only the number zero has no bit. -/
theorem isZero_iff_toNat (a : U32) : isZero a = true ↔ a.toNat = 0 := by
  rw [isZero, isEq_iff]
  constructor
  · rintro rfl
    decide
  · intro h
    exact toNat_inj (by rw [h, toNat_literal, Nat.zero_mod])

/-- One step of the division: the remainder takes the next bit, and the divisor leaves it when
it fits. -/
theorem divmodGoRec_spec {p : Nat} (a0 : Bool) {b : U32} {q : Word p} {r : U32}
    (hr : r.toNat < b.toNat) :
    (divmodGoRec a0 b (q, r)).1.toNat * b.toNat + (divmodGoRec a0 b (q, r)).2.toNat =
        a0.toNat + 2 * (q.toNat * b.toNat + r.toNat) ∧
      (divmodGoRec a0 b (q, r)).2.toNat < b.toNat := by
  have hout := Word.toNat_shlOut a0 r.data
  have ha := Bool.toNat_le a0
  have hb := toNat_lt b
  have hrdef : r.data.toNat = r.toNat := rfl
  rw [divmodGoRec, divmodGoShl]
  generalize Word.shlOut 32 a0 r.data = ts at hout ⊢
  obtain ⟨top, s⟩ := ts
  have hs := Word.toNat_lt s
  have hge := isGe_iff ⟨s⟩ b
  have hsdef : toNat ⟨s⟩ = s.toNat := rfl
  simp only at hout ⊢
  by_cases hg : (top || isGe ⟨s⟩ b) = true
  · -- The 33-bit value holds the divisor, so the wrapped difference is the true one.
    have hfit : b.toNat ≤ top.toNat * 2 ^ 32 + s.toNat := by
      rcases Bool.or_eq_true_iff.mp hg with h | h
      · rw [h, Bool.toNat_true]; omega
      · have := hge.mp h; omega
    have hsub : (sub ⟨s⟩ b).toNat = top.toNat * 2 ^ 32 + s.toNat - b.toNat := by
      rw [toNat_sub, hsdef]
      cases top <;> simp only [Bool.toNat_true, Bool.toNat_false] at hfit hout ⊢ <;> omega
    rw [hg, divmodGoFin, Word.toNat_wcon, hsub, Bool.toNat_true]
    constructor
    · have hexp : (1 + 2 * q.toNat) * b.toNat = b.toNat + 2 * (q.toNat * b.toNat) := by ring
      omega
    · omega
  · rw [Bool.not_eq_true] at hg
    obtain ⟨htop, hnge⟩ := Bool.or_eq_false_iff.mp hg
    have hless : s.toNat < b.toNat := by
      by_contra hle
      rw [hge.mpr (by omega)] at hnge
      cases hnge
    rw [htop, Bool.toNat_false, Nat.zero_mul, Nat.zero_add] at hout
    rw [hg, divmodGoFin, Word.toNat_wcon, Bool.toNat_false]
    constructor
    · change (0 + 2 * q.toNat) * b.toNat + s.toNat = _
      have hexp : (0 + 2 * q.toNat) * b.toNat = 2 * (q.toNat * b.toNat) := by ring
      omega
    · exact hless

/-- The quotient and the remainder of the bits read so far. -/
theorem divmodGo_spec {m : Nat} (a : Word m) {b : U32} (hb : 0 < b.toNat) :
    (divmodGo m a b).1.toNat * b.toNat + (divmodGo m a b).2.toNat = a.toNat ∧
      (divmodGo m a b).2.toNat < b.toNat := by
  induction a with
  | WNil =>
    have hzero : (literal 0).toNat = 0 := by decide
    rw [divmodGo, Word.toNat_wnil, hzero]
    exact ⟨by omega, hb⟩
  | WCon a0 hi ih =>
    obtain ⟨hval, hlt⟩ := ih
    obtain ⟨hval', hlt'⟩ := divmodGoRec_spec a0 (q := (divmodGo _ hi b).1) hlt
    rw [divmodGo, Word.toNat_wcon]
    exact ⟨by rw [hval', hval], hlt'⟩

/-- **The division of the source is that of numbers**, also by zero. -/
theorem toNat_div (a b : U32) : (div a b).toNat = a.toNat / b.toNat := by
  unfold div
  cases hz : isZero b with
  | true =>
    rw [divIf, (isZero_iff_toNat b).mp hz, Nat.div_zero]
    decide
  | false =>
    have hb : 0 < b.toNat := by
      by_contra h
      rw [(isZero_iff_toNat b).mpr (by omega)] at hz
      cases hz
    obtain ⟨hval, hlt⟩ := divmodGo_spec a.data hb
    have haval : a.data.toNat = a.toNat := rfl
    rw [divIf, divFin, ← haval, ← hval, Nat.mul_comm, Nat.mul_add_div hb, Nat.div_eq_of_lt hlt]
    rfl

/-- So is the remainder. -/
theorem toNat_mod (a b : U32) : (mod a b).toNat = a.toNat % b.toNat := by
  unfold mod
  cases hz : isZero b with
  | true =>
    rw [modIf, (isZero_iff_toNat b).mp hz, Nat.mod_zero]
  | false =>
    have hb : 0 < b.toNat := by
      by_contra h
      rw [(isZero_iff_toNat b).mpr (by omega)] at hz
      cases hz
    obtain ⟨hval, hlt⟩ := divmodGo_spec a.data hb
    have haval : a.data.toNat = a.toNat := rfl
    rw [modIf, modFin, ← haval, ← hval, Nat.mul_comm, Nat.mul_add_mod, Nat.mod_eq_of_lt hlt]

end U32

end TeamyBend.Base
