/-
# The numeric fast paths of the runtime

The runtime replaces nine checked definitions of `base.bend` by one machine instruction each
(`numeric.rs`).  A fast path is an optimization of an ordinary body and never an assumption, so it
has to give the word that the body gives on the bits of its arguments.

Both sides are read as natural numbers: the body through the theorems of `Base/Arithmetic.lean`,
the machine word through its own `toNat`.
-/
import TeamyBend.Base.Arithmetic
import Mathlib.Data.UInt

namespace TeamyBend.Runtime

open TeamyBend.Base (U32)

/-! ## 1. The fast paths -/

/-- `PureOptimization`. -/
inductive PureOptimization where
  | Inc
  | Add
  | Sub
  | Mul
  | Shl
  | Shr
  | And
  | Div
  | Mod
  deriving Repr, DecidableEq

namespace PureOptimization

/-- The definition of `base.bend` that the operation stands for. -/
def name : PureOptimization → String
  | Inc => "U32.inc"
  | Add => "U32.add"
  | Sub => "U32.sub"
  | Mul => "U32.mul"
  | Shl => "U32.shl"
  | Shr => "U32.shr"
  | And => "U32.and"
  | Div => "U32.div"
  | Mod => "U32.mod"

/-- How many words the operation takes. -/
def arity : PureOptimization → Nat
  | Add | Sub | Mul | And | Div | Mod => 2
  | Inc | Shl | Shr => 1

/-- `u32::checked_div`. -/
def checkedDiv (x y : UInt32) : Option UInt32 := if y = 0 then none else some (x / y)

/-- `u32::checked_rem`. -/
def checkedRem (x y : UInt32) : Option UInt32 := if y = 0 then none else some (x % y)

/-- `PureOptimization::result`.  The arithmetic of `UInt32` wraps, as the `wrapping_` methods
do. -/
def result : (operation : PureOptimization) → Vector UInt32 operation.arity → UInt32
  | Inc, words => words.get ⟨0, by decide⟩ + 1
  | Add, words => words.get ⟨0, by decide⟩ + words.get ⟨1, by decide⟩
  | Sub, words => words.get ⟨0, by decide⟩ - words.get ⟨1, by decide⟩
  | Mul, words => words.get ⟨0, by decide⟩ * words.get ⟨1, by decide⟩
  | Shl, words => words.get ⟨0, by decide⟩ <<< 1
  | Shr, words => words.get ⟨0, by decide⟩ >>> 1
  | And, words => words.get ⟨0, by decide⟩ &&& words.get ⟨1, by decide⟩
  | Div, words => (checkedDiv (words.get ⟨0, by decide⟩) (words.get ⟨1, by decide⟩)).getD 0
  | Mod, words =>
    (checkedRem (words.get ⟨0, by decide⟩) (words.get ⟨1, by decide⟩)).getD
      (words.get ⟨0, by decide⟩)

/-! ## 2. The bodies they replace -/

/-- The body that `base.bend` gives the definition of this name. -/
def body : (operation : PureOptimization) → Vector U32 operation.arity → U32
  | Inc, words => U32.inc (words.get ⟨0, by decide⟩)
  | Add, words => U32.add (words.get ⟨0, by decide⟩) (words.get ⟨1, by decide⟩)
  | Sub, words => U32.sub (words.get ⟨0, by decide⟩) (words.get ⟨1, by decide⟩)
  | Mul, words => U32.mul (words.get ⟨0, by decide⟩) (words.get ⟨1, by decide⟩)
  | Shl, words => U32.shl (words.get ⟨0, by decide⟩)
  | Shr, words => U32.shr (words.get ⟨0, by decide⟩)
  | And, words => U32.and (words.get ⟨0, by decide⟩) (words.get ⟨1, by decide⟩)
  | Div, words => U32.div (words.get ⟨0, by decide⟩) (words.get ⟨1, by decide⟩)
  | Mod, words => U32.mod (words.get ⟨0, by decide⟩) (words.get ⟨1, by decide⟩)

end PureOptimization

/-- The bits of a machine word, the least significant first, as `WCon` and `WNil`. -/
def encode (x : UInt32) : U32 := U32.literal x.toNat

/-- The machine word with these bits. -/
def decode (a : U32) : UInt32 := UInt32.ofNat a.toNat

@[simp] theorem toNat_encode (x : UInt32) : (encode x).toNat = x.toNat := by
  rw [encode, U32.toNat_literal, Nat.mod_eq_of_lt x.toNat_lt]

theorem toNat_decode (a : U32) : (decode a).toNat = a.toNat := by
  rw [decode, UInt32.toNat_ofNat', Nat.mod_eq_of_lt a.toNat_lt]

theorem decode_encode (x : UInt32) : decode (encode x) = x := by
  apply UInt32.toNat_inj.mp
  rw [toNat_decode, toNat_encode]

theorem get_map_encode {n : Nat} (words : Vector UInt32 n) (i : Fin n) :
    (words.map encode).get i = encode (words.get i) := by
  exact Vector.getElem_map encode i.isLt

/-! ## 3. The two agree -/

namespace PureOptimization

/-- Division by zero gives zero. -/
theorem toNat_checkedDiv (x y : UInt32) : ((checkedDiv x y).getD 0).toNat = x.toNat / y.toNat := by
  unfold checkedDiv
  by_cases hy : y = 0
  · rw [if_pos hy, hy, Option.getD_none, UInt32.toNat_zero, Nat.div_zero]
  · rw [if_neg hy, Option.getD_some, UInt32.toNat_div]

/-- The remainder by zero is the number itself. -/
theorem toNat_checkedRem (x y : UInt32) : ((checkedRem x y).getD x).toNat = x.toNat % y.toNat := by
  unfold checkedRem
  by_cases hy : y = 0
  · rw [if_pos hy, hy, Option.getD_none, UInt32.toNat_zero, Nat.mod_zero]
  · rw [if_neg hy, Option.getD_some, UInt32.toNat_mod]

/-- **A fast path gives what the body gives.**  For every operation and all machine words, the
instruction's result is the word that the body of `base.bend` computes on their bits. -/
theorem result_eq_body (operation : PureOptimization) (words : Vector UInt32 operation.arity) :
    operation.result words = decode (operation.body (words.map encode)) := by
  apply UInt32.toNat_inj.mp
  rw [toNat_decode]
  cases operation
  case Inc =>
    rw [result, body, U32.toNat_inc, get_map_encode, toNat_encode, UInt32.toNat_add]
    rfl
  case Add =>
    rw [result, body, U32.toNat_add, get_map_encode, get_map_encode, toNat_encode, toNat_encode,
      UInt32.toNat_add]
  case Sub =>
    rw [result, body, U32.toNat_sub, get_map_encode, get_map_encode, toNat_encode, toNat_encode,
      UInt32.toNat_sub]
  case Mul =>
    rw [result, body, U32.toNat_mul, get_map_encode, get_map_encode, toNat_encode, toNat_encode,
      UInt32.toNat_mul]
  case Shl =>
    rw [result, body, U32.toNat_shl, get_map_encode, toNat_encode, UInt32.toNat_shiftLeft,
      Nat.shiftLeft_eq, Nat.mul_comm]
    rfl
  case Shr =>
    rw [result, body, U32.toNat_shr, get_map_encode, toNat_encode, UInt32.toNat_shiftRight,
      Nat.shiftRight_eq_div_pow]
    rfl
  case And =>
    rw [result, body, U32.toNat_and, get_map_encode, get_map_encode, toNat_encode, toNat_encode,
      UInt32.toNat_and]
  case Div =>
    rw [result, body, U32.toNat_div, get_map_encode, get_map_encode, toNat_encode, toNat_encode,
      toNat_checkedDiv]
  case Mod =>
    rw [result, body, U32.toNat_mod, get_map_encode, get_map_encode, toNat_encode, toNat_encode,
      toNat_checkedRem]

end PureOptimization

end TeamyBend.Runtime
