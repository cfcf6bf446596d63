/-
# Naturals and numerals of the bundled Base

`Nat.add` and `Nat.double` are lazy in what follows the successors of their first argument, so they
are functions of lazy naturals, which satisfy the equations of their bodies.  The other operations
consume their arguments and are functions of numbers.

`Nat.show` divides by ten until the quotient is zero and puts each remainder in front, which gives
the decimal numeral.
-/
import TeamyBend.Library.LazyNat
import TeamyBend.Base.Arithmetic
import TeamyBend.Base.Text

namespace TeamyBend.Base

open Library (LazyNat)
open Library.LazyNat (grow)

/-! ## 1. Addition and doubling -/

/-- `Nat.add`. -/
def natAdd (a b : LazyNat) : LazyNat := grow 1 b a

/-- `Nat.double`. -/
def natDouble (n : LazyNat) : LazyNat := grow 2 (.whole 0) n

/-- The body of `Nat.add`. -/
theorem natAdd_body (a b : LazyNat) :
    natAdd a b = match a.view with
      | .nothing => .cut 0
      | .zero => b
      | .succ p => (natAdd p b).succ := by
  cases a with
  | whole n =>
    cases n with
    | zero => rfl
    | succ n => exact LazyNat.grow_succ 1 b (.whole n)
  | cut n =>
    cases n with
    | zero => rfl
    | succ n => exact LazyNat.grow_succ 1 b (.cut n)
  | endless => rfl

/-- The body of `Nat.double`. -/
theorem natDouble_body (n : LazyNat) :
    natDouble n = match n.view with
      | .nothing => .cut 0
      | .zero => .whole 0
      | .succ p => (natDouble p).succ.succ := by
  cases n with
  | whole n =>
    cases n with
    | zero => rfl
    | succ n => exact LazyNat.grow_succ 2 (.whole 0) (.whole n)
  | cut n =>
    cases n with
    | zero => rfl
    | succ n => exact LazyNat.grow_succ 2 (.whole 0) (.cut n)
  | endless => rfl

theorem natAdd_after (n : Nat) (u v : LazyNat) :
    natAdd (u.after n) v = (natAdd u v).after n := by
  induction n with
  | zero => rfl
  | succ n ih =>
    rw [LazyNat.after_succ, natAdd_body, LazyNat.view_succ, LazyNat.after_succ]
    exact congrArg LazyNat.succ ih

theorem natDouble_after (n : Nat) (u : LazyNat) :
    natDouble (u.after n) = (natDouble u).after (n * 2) := by
  induction n with
  | zero => rfl
  | succ n ih =>
    rw [LazyNat.after_succ, natDouble_body, LazyNat.view_succ, Nat.succ_mul, LazyNat.after_succ,
      LazyNat.after_succ]
    exact congrArg (fun w => LazyNat.succ (LazyNat.succ w)) ih

@[simp] theorem natAdd_zero (b : LazyNat) : natAdd (.whole 0) b = b := rfl

@[simp] theorem natDouble_zero : natDouble (.whole 0) = .whole 0 := rfl

/-! ## 2. Multiplication -/

/-- `Nat.mul`, with `Nat.add` on numbers. -/
def natMul : Nat → Nat → Nat
  | 0, _ => 0
  | p + 1, b => b + natMul p b

@[simp] theorem natMul_eq (a b : Nat) : natMul a b = a * b := by
  induction a with
  | zero => rw [natMul, Nat.zero_mul]
  | succ p ih => rw [natMul, ih, Nat.succ_mul, Nat.add_comm]

/-! ## 3. Words and naturals -/

/-- `U32.from_nat`. -/
def U32.fromNat : Nat → U32
  | 0 => U32.literal 0
  | p + 1 => U32.inc (U32.fromNat p)

theorem U32.toNat_fromNat (n : Nat) : (U32.fromNat n).toNat = n % 2 ^ 32 := by
  induction n with
  | zero => rw [U32.fromNat, U32.toNat_literal]
  | succ p ih =>
    rw [U32.fromNat, U32.toNat_inc, ih]
    omega

/-! ## 4. Numerals -/

/-- `Nat.show.put`. -/
def natShowPut (qr : Nat × Nat) : Char × Nat := (⟨U32.fromNat (48 + qr.2)⟩, qr.1)

/-- `Nat.show.go`. -/
def natShowGo : Nat → Nat → String → String
  | 0, _, acc => acc
  | g + 1, n, acc =>
    match natShowPut (natDivmod n 10) with
    | (d, 0) => .SCon d acc
    | (d, p + 1) => natShowGo g (p + 1) (.SCon d acc)

/-- `Nat.show.fin`. -/
def natShowFin (g : Nat) (acc : String) (dq : Char × Nat) : String :=
  match dq with
  | (d, 0) => .SCon d acc
  | (d, p + 1) => natShowGo g (p + 1) (.SCon d acc)

/-- `Nat.show`. -/
def natShow (n : Nat) : String := natShowFin n .SNil (natShowPut (natDivmod n 10))

/-- Characters with these codes, in front of a text. -/
def String.ofCodes (codes : List Nat) (rest : String) : String :=
  codes.foldr (fun code text => .SCon ⟨U32.literal code⟩ text) rest

@[simp] theorem String.ofCodes_nil (rest : String) : String.ofCodes [] rest = rest := rfl

@[simp] theorem String.ofCodes_cons (code : Nat) (codes : List Nat) (rest : String) :
    String.ofCodes (code :: codes) rest = .SCon ⟨U32.literal code⟩ (String.ofCodes codes rest) :=
  rfl

theorem String.ofCodes_append (codes more : List Nat) (rest : String) :
    String.ofCodes (codes ++ more) rest = String.ofCodes codes (String.ofCodes more rest) :=
  List.foldr_append

/-- The codes of the decimal numeral of a number. -/
def decimalCodes (n : Nat) : List Nat := (Nat.toDigits 10 n).map fun digit => digit.toNat

theorem toNat_digitChar {d : Nat} (hd : d < 10) : d.digitChar.toNat = 48 + d := by
  revert d
  decide

theorem decimalCodes_of_lt {n : Nat} (hn : n < 10) : decimalCodes n = [48 + n] := by
  rw [decimalCodes, Nat.toDigits_of_lt_base hn, List.map_singleton, toNat_digitChar hn]

theorem decimalCodes_of_le {n : Nat} (hn : 10 ≤ n) :
    decimalCodes n = decimalCodes (n / 10) ++ [48 + n % 10] := by
  rw [decimalCodes, Nat.toDigits_of_base_le (by decide) hn, List.map_append, List.map_singleton,
    toNat_digitChar (Nat.mod_lt n (by decide)), decimalCodes]

theorem U32.fromNat_eq (n : Nat) : U32.fromNat n = U32.literal n := by
  apply U32.toNat_inj
  rw [U32.toNat_fromNat, U32.toNat_literal]

theorem natShowGo_eq (g n : Nat) (hg : n ≤ g) (hn : 0 < n) (acc : String) :
    natShowGo g n acc = String.ofCodes (decimalCodes n) acc := by
  induction g generalizing n acc with
  | zero => omega
  | succ g ih =>
    rw [natShowGo, natDivmod_eq n 10 (by decide), natShowPut, U32.fromNat_eq]
    rcases Nat.lt_or_ge n 10 with hlt | hge
    · rw [Nat.div_eq_of_lt hlt, Nat.mod_eq_of_lt hlt, decimalCodes_of_lt hlt]
      rfl
    · obtain ⟨q, hq⟩ : ∃ q, n / 10 = q + 1 := ⟨n / 10 - 1, by omega⟩
      rw [decimalCodes_of_le hge, String.ofCodes_append, hq]
      exact ih (q + 1) (by omega) (by omega) _

/-- **`Nat.show` gives the decimal numeral.** -/
theorem natShow_eq (n : Nat) : natShow n = String.ofCodes (decimalCodes n) .SNil := by
  rw [natShow, natDivmod_eq n 10 (by decide), natShowPut, U32.fromNat_eq]
  rcases Nat.lt_or_ge n 10 with hlt | hge
  · rw [Nat.div_eq_of_lt hlt, Nat.mod_eq_of_lt hlt, decimalCodes_of_lt hlt]
    rfl
  · obtain ⟨q, hq⟩ : ∃ q, n / 10 = q + 1 := ⟨n / 10 - 1, by omega⟩
    rw [decimalCodes_of_le hge, String.ofCodes_append, hq]
    exact natShowGo_eq n (q + 1) (by omega) (by omega) _

end TeamyBend.Base
