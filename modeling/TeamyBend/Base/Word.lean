/-
# Words of the bundled Base, bit by bit

`Word(n)` is a list of `n` bits with the least significant first, and a `U32` wraps a
`Word(32n)`.  The definitions follow `base.bend` one by one: each recurses on the width and
matches the words' heads, so no machine arithmetic is assumed of them.

The lemmas say what each operation does to the bit at a position (`Word.get`), and that the
comparison is decided by the highest differing bit (`Word.cmp_eq_lt_iff`).
-/
import Mathlib.Tactic.Common
import Mathlib.Data.Bool.Basic

namespace TeamyBend.Base

/-! ## 1. `Cmp` and the `Nat` helpers -/

/-- `type Cmp`. -/
inductive Cmp where
  | LT
  | EQ
  | GT
  deriving Repr, DecidableEq

/-- `Cmp.is_lt`. -/
def Cmp.isLt : Cmp → Bool
  | LT => true
  | EQ => false
  | GT => false

/-- `Cmp.is_eq`. -/
def Cmp.isEq : Cmp → Bool
  | LT => false
  | EQ => true
  | GT => false

/-- The comparison with its arguments exchanged. -/
def Cmp.swap : Cmp → Cmp
  | LT => GT
  | EQ => EQ
  | GT => LT

@[simp] theorem Cmp.isEq_iff (c : Cmp) : c.isEq = true ↔ c = EQ := by
  cases c <;> simp [isEq]

@[simp] theorem Cmp.isLt_iff (c : Cmp) : c.isLt = true ↔ c = LT := by
  cases c <;> simp [isLt]

@[simp] theorem Cmp.swap_eq_lt (c : Cmp) : c.swap = LT ↔ c = GT := by
  cases c <;> simp [swap]

@[simp] theorem Cmp.swap_swap (c : Cmp) : c.swap.swap = c := by
  cases c <;> rfl

/-- `Bool.cmp`. -/
def boolCmp : Bool → Bool → Cmp
  | false, false => .EQ
  | false, true => .LT
  | true, false => .GT
  | true, true => .EQ

/-- `Nat.sub`. -/
def natSub : Nat → Nat → Nat
  | 0, 0 => 0
  | 0, _ + 1 => 0
  | ap + 1, 0 => ap + 1
  | ap + 1, bp + 1 => natSub ap bp

/-- `Nat.cmp`. -/
def natCmp : Nat → Nat → Cmp
  | 0, 0 => .EQ
  | 0, _ + 1 => .LT
  | _ + 1, 0 => .GT
  | ap + 1, bp + 1 => natCmp ap bp

/-- `Nat.is_lt`. -/
def natIsLt (a b : Nat) : Bool := (natCmp a b).isLt

/-- `Nat.divmod.go`. -/
def natDivmodGo : Nat → Nat → Nat → Nat → Nat × Nat
  | 0, _, d, r => (d, r)
  | np + 1, 0, d, r => natDivmodGo np r (1 + d) 0
  | np + 1, mp + 1, d, r => natDivmodGo np mp d (1 + r)

/-- `Nat.divmod`. -/
def natDivmod (a : Nat) : Nat → Nat × Nat
  | 0 => (0, a)
  | bp + 1 => natDivmodGo a bp 0 0

@[simp] theorem natSub_eq (a b : Nat) : natSub a b = a - b := by
  fun_induction natSub a b <;> omega

@[simp] theorem natIsLt_eq (a b : Nat) : natIsLt a b = decide (a < b) := by
  unfold natIsLt
  fun_induction natCmp a b <;> simp_all [Cmp.isLt]

/-- The loop carries the quotient `d`, the remainder `r` and what is missing to the next
multiple of the divisor `m + r + 1`. -/
theorem natDivmodGo_eq (n m d r : Nat) :
    natDivmodGo n m d r = (d + (n + r) / (m + r + 1), (n + r) % (m + r + 1)) := by
  fun_induction natDivmodGo n m d r with
  | case1 m d r =>
    rw [Nat.zero_add, Nat.div_eq_of_lt (by omega), Nat.mod_eq_of_lt (by omega), Nat.add_zero]
  | case2 np d r ih =>
    rw [ih]
    have hsplit : np + 1 + r = np + (0 + r + 1) := by omega
    rw [hsplit, Nat.add_div_right _ (by omega), Nat.add_mod_right]
    simp only [Nat.add_zero, Nat.zero_add]
    congr 1
    omega
  | case3 np mp d r ih =>
    rw [ih]
    have h1 : np + (1 + r) = np + 1 + r := by omega
    have h2 : mp + (1 + r) + 1 = mp + 1 + r + 1 := by omega
    rw [h1, h2]

/-- The division subtracts the divisor as often as it can. -/
theorem natDivmod_eq (a b : Nat) (hb : 0 < b) : natDivmod a b = (a / b, a % b) := by
  obtain ⟨bp, rfl⟩ : ∃ bp, b = bp + 1 := ⟨b - 1, by omega⟩
  simp [natDivmod, natDivmodGo_eq]

/-! ## 2. Words -/

/-- `Word(n)`: `WNil` at width zero and `WCon{head, tail}` above. -/
inductive Word : Nat → Type where
  | WNil : Word 0
  | WCon {p : Nat} (head : Bool) (tail : Word p) : Word (p + 1)
  deriving Repr, DecidableEq

namespace Word

/-- `Word.zero`. -/
def zero : (n : Nat) → Word n
  | 0 => WNil
  | p + 1 => WCon false (zero p)

/-- `Word.and`. -/
def and : (n : Nat) → Word n → Word n → Word n
  | 0, _, _ => WNil
  | p + 1, WCon ab at', WCon bb bt => WCon (Bool.and ab bb) (and p at' bt)

/-- `Word.xor`. -/
def xor : (n : Nat) → Word n → Word n → Word n
  | 0, _, _ => WNil
  | p + 1, WCon ab at', WCon bb bt => WCon (Bool.xor ab bb) (xor p at' bt)

/-- `Word.shr.pad`. -/
def shrPad : (n : Nat) → Word n → Word (n + 1)
  | 0, w => WCon false w
  | p + 1, WCon b t => WCon b (shrPad p t)

/-- `Word.shr`. -/
def shr : (n : Nat) → Word n → Word n
  | 0, _ => WNil
  | p + 1, WCon _ t => shrPad p t

/-- `Word.cmp.fin`. -/
def cmpFin (ab bb : Bool) : Cmp → Cmp
  | .LT => .LT
  | .EQ => boolCmp ab bb
  | .GT => .GT

/-- `Word.cmp`. -/
def cmp : (n : Nat) → Word n → Word n → Cmp
  | 0, _, _ => .EQ
  | p + 1, WCon ab at', WCon bb bt => cmpFin ab bb (cmp p at' bt)

/-- The word of a numeric literal, as the parser spells it. -/
def literal : (n : Nat) → Nat → Word n
  | 0, _ => WNil
  | p + 1, v => WCon (v % 2 == 1) (literal p (v / 2))

/-- The bit at a position, clear past the width. -/
def get : {n : Nat} → Word n → Nat → Bool
  | 0, _, _ => false
  | _ + 1, WCon b _, 0 => b
  | _ + 1, WCon _ t, i + 1 => get t i

@[simp] theorem get_wnil (i : Nat) : WNil.get i = false := by
  cases i <;> rfl

@[simp] theorem get_wcon_zero {p : Nat} (b : Bool) (t : Word p) : (WCon b t).get 0 = b := rfl

@[simp] theorem get_wcon_succ {p : Nat} (b : Bool) (t : Word p) (i : Nat) :
    (WCon b t).get (i + 1) = t.get i := rfl

/-- There are no bits beyond the width. -/
theorem get_of_le {n : Nat} (w : Word n) {i : Nat} (h : n ≤ i) : w.get i = false := by
  induction w generalizing i with
  | WNil => simp
  | WCon b t ih =>
    obtain ⟨i, rfl⟩ : ∃ j, i = j + 1 := ⟨i - 1, by omega⟩
    exact ih (by omega)

/-- Words with the same bits are equal. -/
theorem ext_get {n : Nat} {a b : Word n} (h : ∀ i, a.get i = b.get i) : a = b := by
  induction a with
  | WNil => cases b; rfl
  | WCon x t ih =>
    cases b with
    | WCon y u =>
      have h0 : x = y := h 0
      rw [h0, ih fun i => h (i + 1)]

@[simp] theorem get_zero (n i : Nat) : (zero n).get i = false := by
  induction n generalizing i with
  | zero => exact get_wnil i
  | succ p ih =>
    cases i with
    | zero => rfl
    | succ i => exact ih i

@[simp] theorem get_and {n : Nat} (a b : Word n) (i : Nat) :
    (and n a b).get i = (a.get i && b.get i) := by
  induction a generalizing i with
  | WNil => cases b; simp [and]
  | WCon x t ih =>
    cases b with
    | WCon y u =>
      cases i with
      | zero => rfl
      | succ i => exact ih u i

@[simp] theorem get_xor {n : Nat} (a b : Word n) (i : Nat) :
    (xor n a b).get i = (a.get i ^^ b.get i) := by
  induction a generalizing i with
  | WNil => cases b; simp [xor]
  | WCon x t ih =>
    cases b with
    | WCon y u =>
      cases i with
      | zero => rfl
      | succ i => exact ih u i

@[simp] theorem get_shrPad {n : Nat} (w : Word n) (i : Nat) : (shrPad n w).get i = w.get i := by
  induction w generalizing i with
  | WNil => cases i <;> simp [shrPad]
  | WCon b t ih =>
    cases i with
    | zero => rfl
    | succ i => exact ih i

@[simp] theorem get_shr {n : Nat} (w : Word n) (i : Nat) : (shr n w).get i = w.get (i + 1) := by
  cases w with
  | WNil => simp [shr]
  | WCon b t => simp [shr]

/-- A zero has no bit. -/
theorem get_literal_zero (n i : Nat) : (literal n 0).get i = false := by
  induction n generalizing i with
  | zero => exact get_wnil i
  | succ p ih =>
    cases i with
    | zero => rfl
    | succ i => exact ih i

/-- A one has the first bit. -/
theorem get_literal_one (n i : Nat) : (literal (n + 1) 1).get i = decide (i = 0) := by
  cases i with
  | zero => rfl
  | succ i => simpa [literal] using get_literal_zero n i

/-! ## 3. The comparison is decided by the highest differing bit -/

/-- Words are equal exactly if the comparison says so. -/
theorem cmp_eq_iff {n : Nat} (a b : Word n) : cmp n a b = .EQ ↔ a = b := by
  induction a with
  | WNil => cases b; simp [cmp]
  | WCon x t ih =>
    cases b with
    | WCon y u =>
      have := ih u
      simp only [cmp, WCon.injEq]
      cases hc : cmp _ t u <;> simp_all [cmpFin]
      cases x <;> cases y <;> simp [boolCmp]

/-- The comparison the other way. -/
theorem cmp_swap {n : Nat} (a b : Word n) : cmp n b a = (cmp n a b).swap := by
  induction a with
  | WNil => cases b; rfl
  | WCon x t ih =>
    cases b with
    | WCon y u =>
      simp only [cmp, ih u]
      cases cmp _ t u <;> cases x <;> cases y <;> rfl

/-- Two words differ at `i` and at no higher position. -/
structure TopDiffer {n : Nat} (a b : Word n) (i : Nat) : Prop where
  here : a.get i ≠ b.get i
  above : ∀ j, i < j → a.get j = b.get j

/-- **Two words differ in a last place.** -/
theorem exists_topDiffer {n : Nat} {a b : Word n} (h : a ≠ b) : ∃ i, TopDiffer a b i := by
  induction a with
  | WNil => cases b; exact absurd rfl h
  | WCon x t ih =>
    cases b with
    | WCon y u =>
      by_cases htu : t = u
      · subst htu
        refine ⟨0, fun hxy => h (congrArg (WCon · t) hxy), fun j hj => ?_⟩
        obtain ⟨j, rfl⟩ : ∃ k, j = k + 1 := ⟨j - 1, by omega⟩
        rfl
      · obtain ⟨i, hi⟩ := ih htu
        refine ⟨i + 1, hi.here, fun j hj => ?_⟩
        obtain ⟨j, rfl⟩ : ∃ k, j = k + 1 := ⟨j - 1, by omega⟩
        exact hi.above j (by omega)

/-- It lies within the width. -/
theorem TopDiffer.lt {n : Nat} {a b : Word n} {i : Nat} (h : TopDiffer a b i) : i < n := by
  by_contra hle
  exact h.here (by rw [get_of_le a (by omega), get_of_le b (by omega)])

/-- The comparison is decided there. -/
theorem cmp_eq_lt_iff {n : Nat} {a b : Word n} {i : Nat} (h : TopDiffer a b i) :
    cmp n a b = .LT ↔ a.get i = false := by
  induction a generalizing i with
  | WNil => cases b; exact absurd rfl h.here
  | WCon x t ih =>
    cases b with
    | WCon y u =>
      cases i with
      | zero =>
        have htu : t = u := ext_get fun j => h.above (j + 1) (by omega)
        have hxy : x ≠ y := h.here
        subst htu
        rw [cmp, (cmp_eq_iff t t).mpr rfl, get_wcon_zero]
        cases x <;> cases y <;> simp_all [cmpFin, boolCmp]
      | succ i =>
        have htop : TopDiffer t u i := ⟨h.here, fun j hj => h.above (j + 1) (by omega)⟩
        have hne : cmp _ t u ≠ .EQ := fun he => htop.here (by rw [(cmp_eq_iff t u).mp he])
        rw [cmp, get_wcon_succ, ← ih htop]
        cases hc : cmp _ t u <;> simp_all [cmpFin]

end Word

/-! ## 4. `U32` -/

/-- `type U32`. -/
structure U32 where
  data : Word 32
  deriving Repr, DecidableEq

namespace U32

/-- `U32.and`. -/
def and (a b : U32) : U32 := ⟨Word.and 32 a.data b.data⟩

/-- `U32.xor`. -/
def xor (a b : U32) : U32 := ⟨Word.xor 32 a.data b.data⟩

/-- `U32.shr`. -/
def shr (a : U32) : U32 := ⟨Word.shr 32 a.data⟩

/-- `U32.shrn`. -/
def shrn (a : U32) : Nat → U32
  | 0 => a
  | p + 1 => shr (shrn a p)

/-- `U32.cmp`. -/
def cmp (a b : U32) : Cmp := Word.cmp 32 a.data b.data

/-- `U32.is_eq`. -/
def isEq (a b : U32) : Bool := (cmp a b).isEq

/-- `U32.is_ne`. -/
def isNe (a b : U32) : Bool := !(cmp a b).isEq

/-- A `U32` literal. -/
def literal (v : Nat) : U32 := ⟨Word.literal 32 v⟩

/-- `U32.is_zero`. -/
def isZero (a : U32) : Bool := isEq a (literal 0)

/-- The bit at a position, clear past the width. -/
def get (a : U32) (i : Nat) : Bool := a.data.get i

/-- Words with the same bits are equal. -/
theorem ext_get {a b : U32} (h : ∀ i, a.get i = b.get i) : a = b := by
  cases a
  cases b
  exact congrArg U32.mk (Word.ext_get h)

@[simp] theorem isEq_iff (a b : U32) : isEq a b = true ↔ a = b := by
  cases a
  cases b
  simp [isEq, cmp, Word.cmp_eq_iff]

@[simp] theorem get_xor (a b : U32) (i : Nat) : (xor a b).get i = (a.get i ^^ b.get i) :=
  Word.get_xor a.data b.data i

@[simp] theorem get_and (a b : U32) (i : Nat) : (and a b).get i = (a.get i && b.get i) :=
  Word.get_and a.data b.data i

@[simp] theorem get_shr (a : U32) (i : Nat) : (shr a).get i = a.get (i + 1) :=
  Word.get_shr a.data i

@[simp] theorem get_shrn (a : U32) (k i : Nat) : (shrn a k).get i = a.get (i + k) := by
  induction k generalizing i with
  | zero => rfl
  | succ p ih =>
    rw [shrn, get_shr, ih]
    congr 1
    omega

@[simp] theorem get_literal_zero (i : Nat) : (literal 0).get i = false :=
  Word.get_literal_zero 32 i

@[simp] theorem get_literal_one (i : Nat) : (literal 1).get i = decide (i = 0) :=
  Word.get_literal_one 31 i

/-- Only zero has no bit. -/
theorem isZero_iff (a : U32) : isZero a = true ↔ ∀ i, a.get i = false := by
  rw [isZero, isEq_iff]
  refine ⟨?_, fun h => ext_get fun i => by rw [h i, get_literal_zero]⟩
  rintro rfl i
  exact get_literal_zero i

end U32

end TeamyBend.Base
