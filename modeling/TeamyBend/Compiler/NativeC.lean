/-
# Native operations of the C backend

`Generator::native` writes one machine expression for each operation of Base that it knows.  A
term is a 64-bit word: a `U32` or a `Nat` is its number, and a constructor without fields is packed
with its identity.  `native` is what the expression computes, with the casts, the guards and the
failures as they are written, and `arithmetic` is what it computes on 64 bits on the way.

`base` is the definition of the same name in `base.bend`.  On the encodings of its arguments an
operation computes the encoding of its result, or fails for a natural that has none.
-/
import TeamyBend.Base.Operations

namespace TeamyBend.Compiler

open Base (Cmp boolOr boolXor natSub natCmp natIsLt natDivmod)

/-! ## 1. Terms -/

/-- `tb_fail` and `err_fail`. -/
inductive Failure where
  | natOverflow (message : String)
  | internal (message : String)
  deriving Repr, DecidableEq

/-- `NAT_IMM`. -/
def natImm : UInt64 := ((1 : UInt64) <<< 48) - 1

/-- `LOC_MASK`. -/
def locMask : UInt64 := ((1 : UInt64) <<< 40) - 1

/-- `term_make`. -/
def termMake (tag aux loc : UInt64) : Except Failure UInt64 :=
  if tag > 127 ∨ aux > 65535 ∨ loc > locMask then .error (.internal "native term fields overflow")
  else .ok (tag <<< 56 ||| aux <<< 40 ||| loc)

/-- `TAG_PAK`. -/
def tagPak : UInt64 := 1

/-- `term_pak`. -/
def termPak (cid loc : UInt64) : Except Failure UInt64 := termMake tagPak cid loc

/-- `term_aux`. -/
def termAux (term : UInt64) : UInt64 := term >>> 40 &&& 65535

/-- The identities that the constructor table gives out, each of 16 bits. -/
structure Cids where
  lt : UInt16
  eq : UInt16
  gt : UInt16
  false : UInt16
  true : UInt16
  /-- An identity is a position in the table. -/
  nodup : [lt, eq, gt, false, true].Nodup

/-- `nat_chk`. -/
def natChk (value : UInt64) : Except Failure UInt64 :=
  if value > natImm then .error (.natOverflow "Nat exceeds largest immediate") else .ok value

/-- `nat_mul`. -/
def natMul (left right : UInt64) : Except Failure UInt64 :=
  if right ≠ 0 ∧ left > natImm / right then .error (.natOverflow "Nat multiplication overflow")
  else natChk (left * right)

/-! ## 2. The operations -/

/-- The operations that are not on arrays. -/
inductive Native where
  | u32Add | u32Sub | u32Mul | u32And | u32Or | u32Xor | u32Div | u32Mod | u32Not | u32Inc
  | u32Shl | u32Shr | u32Shln | u32Shrn
  | u32IsEq | u32IsNe | u32IsLt | u32IsLe | u32IsGt | u32IsGe | u32IsZero | u32Cmp
  | u32ToNat | u32FromNat
  | natAdd | natSub | natMul | natDouble | natCmp | natIsLt | natDivmod
  | boolOr | boolXor
  deriving Repr, DecidableEq

section Operations

variable (cids : Cids)

/-- `term_pak(.. ? CID_TRUE : CID_FALSE, 0)`. -/
def pakBool (condition : Bool) : Except Failure (List UInt64) := do
  return [← termPak (if condition then cids.true.toUInt64 else cids.false.toUInt64) 0]

/-- `term_pak(a < b ? CID_LT : a == b ? CID_EQ : CID_GT, 0)`. -/
def pakCmp (a b : UInt64) : Except Failure (List UInt64) := do
  return [← termPak (if a < b then cids.lt.toUInt64
    else if a = b then cids.eq.toUInt64 else cids.gt.toUInt64) 0]

/-- A value of 32 bits as a term. -/
def u32 (value : UInt32) : Except Failure (List UInt64) := .ok [value.toUInt64]

/-- `Generator::native`: the words of the value that the expression computes. -/
def native (name : Native) (arguments : List UInt64) : Except Failure (List UInt64) :=
  let a := arguments.headD 0
  let b := (arguments[1]?).getD 0
  match name with
  | .u32Add => u32 (a.toUInt32 + b.toUInt32)
  | .u32Sub => u32 (a.toUInt32 - b.toUInt32)
  | .u32Mul => u32 (a.toUInt32 * b.toUInt32)
  | .u32And => u32 (a.toUInt32 &&& b.toUInt32)
  | .u32Or => u32 (a.toUInt32 ||| b.toUInt32)
  | .u32Xor => u32 (a.toUInt32 ^^^ b.toUInt32)
  | .u32Div => u32 (if b.toUInt32 = 0 then 0 else a.toUInt32 / b.toUInt32)
  | .u32Mod => u32 (if b.toUInt32 = 0 then a.toUInt32 else a.toUInt32 % b.toUInt32)
  | .u32Not => u32 (~~~a.toUInt32)
  | .u32Inc => u32 (a.toUInt32 + 1)
  | .u32Shl => u32 (a.toUInt32 <<< 1)
  | .u32Shr => u32 (a.toUInt32 >>> 1)
  | .u32Shln => u32 (if b ≥ 32 then 0 else a.toUInt32 <<< b.toUInt32)
  | .u32Shrn => u32 (if b ≥ 32 then 0 else a.toUInt32 >>> b.toUInt32)
  | .u32IsEq => pakBool cids (a.toUInt32 == b.toUInt32)
  | .u32IsNe => pakBool cids (a.toUInt32 != b.toUInt32)
  | .u32IsLt => pakBool cids (decide (a.toUInt32 < b.toUInt32))
  | .u32IsLe => pakBool cids (decide (a.toUInt32 ≤ b.toUInt32))
  | .u32IsGt => pakBool cids (decide (a.toUInt32 > b.toUInt32))
  | .u32IsGe => pakBool cids (decide (a.toUInt32 ≥ b.toUInt32))
  | .u32IsZero => pakBool cids (a.toUInt32 == 0)
  | .u32Cmp | .natCmp => pakCmp cids a b
  | .u32ToNat | .u32FromNat => u32 a.toUInt32
  | .natAdd => return [← natChk (a + b)]
  | .natSub => .ok [if a < b then 0 else a - b]
  | .natMul => return [← natMul a b]
  | .natDouble => return [← natChk (a + a)]
  | .natIsLt => pakBool cids (decide (a < b))
  | .natDivmod => .ok [if b = 0 then 0 else a / b, if b = 0 then a else a % b]
  | .boolOr => pakBool cids
      (termAux a == cids.true.toUInt64 || termAux b == cids.true.toUInt64)
  | .boolXor => pakBool cids
      ((termAux a == cids.true.toUInt64) != (termAux b == cids.true.toUInt64))

/-- The 64-bit arithmetic of an operation: the number that each step is to compute, and the word
that it computes. -/
def arithmetic (name : Native) (arguments : List UInt64) : List (Int × UInt64) :=
  let a := arguments.headD 0
  let b := (arguments[1]?).getD 0
  match name with
  | .natAdd => [((a.toNat : Int) + b.toNat, a + b)]
  | .natDouble => [((a.toNat : Int) + a.toNat, a + a)]
  | .natSub => if a < b then [] else [((a.toNat : Int) - b.toNat, a - b)]
  | .natMul =>
    if b ≠ 0 ∧ a > natImm / b then [] else [((a.toNat : Int) * b.toNat, a * b)]
  | _ => []

/-! ## 3. Values -/

/-- A value of one of the types of the operations. -/
inductive Datum where
  | u32 (value : Base.U32)
  | nat (value : Nat)
  | bool (value : Bool)
  | cmp (value : Cmp)
  | pair (first second : Nat)

namespace Datum

def cidOfBool : Bool → UInt16
  | true => cids.true
  | false => cids.false

def cidOfCmp : Cmp → UInt16
  | .LT => cids.lt
  | .EQ => cids.eq
  | .GT => cids.gt

/-- A constructor without fields. -/
def pak (cid : UInt16) : UInt64 := tagPak <<< 56 ||| cid.toUInt64 <<< 40 ||| 0

/-- The words of a value. -/
def encode : Datum → List UInt64
  | u32 value => [.ofNat value.toNat]
  | nat value => [.ofNat value]
  | bool value => [pak (cidOfBool cids value)]
  | cmp value => [pak (cidOfCmp cids value)]
  | pair first second => [.ofNat first, .ofNat second]

/-- The naturals of the value are immediate. -/
def Fits : Datum → Prop
  | nat value => value ≤ natImm.toNat
  | pair first second => first ≤ natImm.toNat ∧ second ≤ natImm.toNat
  | _ => True

instance (datum : Datum) : Decidable datum.Fits := by
  cases datum <;> unfold Fits <;> infer_instance

end Datum

end Operations

/-- The definition of the same name in `base.bend`, on arguments of its types. -/
def base : Native → List Datum → Option Datum
  | .u32Add, [.u32 a, .u32 b] => some (.u32 (.add a b))
  | .u32Sub, [.u32 a, .u32 b] => some (.u32 (.sub a b))
  | .u32Mul, [.u32 a, .u32 b] => some (.u32 (.mul a b))
  | .u32And, [.u32 a, .u32 b] => some (.u32 (.and a b))
  | .u32Or, [.u32 a, .u32 b] => some (.u32 (.or a b))
  | .u32Xor, [.u32 a, .u32 b] => some (.u32 (.xor a b))
  | .u32Div, [.u32 a, .u32 b] => some (.u32 (.div a b))
  | .u32Mod, [.u32 a, .u32 b] => some (.u32 (.mod a b))
  | .u32Not, [.u32 a] => some (.u32 (.not a))
  | .u32Inc, [.u32 a] => some (.u32 (.inc a))
  | .u32Shl, [.u32 a] => some (.u32 (.shl a))
  | .u32Shr, [.u32 a] => some (.u32 (.shr a))
  | .u32Shln, [.u32 a, .nat n] => some (.u32 (.shln a n))
  | .u32Shrn, [.u32 a, .nat n] => some (.u32 (.shrn a n))
  | .u32IsEq, [.u32 a, .u32 b] => some (.bool (Base.U32.isEq a b))
  | .u32IsNe, [.u32 a, .u32 b] => some (.bool (Base.U32.isNe a b))
  | .u32IsLt, [.u32 a, .u32 b] => some (.bool (Base.U32.isLt a b))
  | .u32IsLe, [.u32 a, .u32 b] => some (.bool (Base.U32.isLe a b))
  | .u32IsGt, [.u32 a, .u32 b] => some (.bool (Base.U32.isGt a b))
  | .u32IsGe, [.u32 a, .u32 b] => some (.bool (Base.U32.isGe a b))
  | .u32IsZero, [.u32 a] => some (.bool (Base.U32.isZero a))
  | .u32Cmp, [.u32 a, .u32 b] => some (.cmp (Base.U32.cmp a b))
  | .u32ToNat, [.u32 a] => some (.nat (Base.U32.toFinite a))
  | .u32FromNat, [.nat n] => some (.u32 (.fromNat n))
  | .natAdd, [.nat a, .nat b] => some (.nat (Base.Finite.natAdd a b))
  | .natSub, [.nat a, .nat b] => some (.nat (natSub a b))
  | .natMul, [.nat a, .nat b] => some (.nat (Base.Finite.natMul a b))
  | .natDouble, [.nat n] => some (.nat (Base.Finite.natDouble n))
  | .natCmp, [.nat a, .nat b] => some (.cmp (natCmp a b))
  | .natIsLt, [.nat a, .nat b] => some (.bool (natIsLt a b))
  | .natDivmod, [.nat a, .nat b] => some (.pair (natDivmod a b).1 (natDivmod a b).2)
  | .boolOr, [.bool a, .bool b] => some (.bool (boolOr a b))
  | .boolXor, [.bool a, .bool b] => some (.bool (boolXor a b))
  | _, _ => none

/-! ## 4. Words of terms -/

section Terms

variable (cids : Cids)

theorem natImm_eq : natImm.toNat = 2 ^ 48 - 1 := by decide

theorem toNat_ofNat_of_le {n : Nat} (h : n < 2 ^ 64) : (UInt64.ofNat n).toNat = n := by
  rw [UInt64.toNat_ofNat', Nat.mod_eq_of_lt h]

@[simp] theorem toUInt32_encode (a : Base.U32) : (UInt64.ofNat a.toNat).toUInt32 = a.word := by
  refine UInt32.toNat_inj.mp ?_
  have hlt := a.toNat_lt
  rw [UInt64.toNat_toUInt32, toNat_ofNat_of_le (by omega), Base.U32.toNat_word]
  omega

theorem toUInt64_word (a : Base.U32) : a.word.toUInt64 = .ofNat a.toNat := by
  refine UInt64.toNat_inj.mp ?_
  have hlt := a.toNat_lt
  rw [UInt32.toNat_toUInt64, Base.U32.toNat_word, toNat_ofNat_of_le (by omega)]

/-- A constructor without fields is packed. -/
theorem termPak_cid (cid : UInt16) : termPak cid.toUInt64 0 = .ok (Datum.pak cid) := by
  have hcid : ¬cid.toUInt64 > 65535 := by
    rw [gt_iff_lt, UInt64.lt_iff_toNat_lt, UInt16.toNat_toUInt64]
    have hlt := cid.toNat_lt
    simp only [UInt64.reduceToNat]
    omega
  have hloc : ¬(0 : UInt64) > locMask := by decide
  have htag : ¬tagPak > 127 := by decide
  rw [termPak, termMake, if_neg (by simp [hcid, hloc, htag])]
  rfl

/-- **The identity is read back.** -/
theorem termAux_pak (cid : UInt16) : termAux (Datum.pak cid) = cid.toUInt64 := by
  refine UInt64.toNat_inj.mp ?_
  have hlt := cid.toNat_lt
  have hforty : (40 : UInt64).toNat % 64 = 40 := by decide
  have hshift : (cid.toUInt64 <<< 40).toNat = cid.toNat * 2 ^ 40 := by
    rw [UInt64.toNat_shiftLeft, UInt16.toNat_toUInt64, hforty, Nat.shiftLeft_eq]
    omega
  have htag : (tagPak <<< 56).toNat = 2 ^ 56 * 1 := by decide
  -- the tag stands above the identity
  have hpak : (Datum.pak cid).toNat = 2 ^ 56 * 1 + cid.toNat * 2 ^ 40 := by
    rw [Nat.two_pow_add_eq_or_of_lt (by omega), ← hshift, ← htag, Datum.pak, UInt64.or_zero,
      UInt64.toNat_or]
  have hmask : (65535 : UInt64).toNat = 2 ^ 16 - 1 := by decide
  rw [termAux, UInt64.toNat_and, UInt64.toNat_shiftRight, hforty, hpak, hmask,
    Nat.shiftRight_eq_div_pow, Nat.and_two_pow_sub_one_eq_mod, UInt16.toNat_toUInt64]
  omega

end Terms

/-! ## 5. Results -/

/-- How an operation fails. -/
def overflow : Native → Failure
  | .natMul => .natOverflow "Nat multiplication overflow"
  | _ => .natOverflow "Nat exceeds largest immediate"

/-- What an operation whose result is known has to do. -/
def outcome (cids : Cids) (name : Native) (result : Datum) : Except Failure (List UInt64) :=
  if result.Fits then .ok (result.encode cids) else .error (overflow name)

section Results

variable {cids : Cids} {name : Native}

theorem u32_outcome {value : UInt32} {a : Base.U32} (h : value = a.word) :
    u32 value = outcome cids name (.u32 a) := by
  rw [u32, h, toUInt64_word]
  rfl

/-- An operation on one word. -/
theorem u32_unary {g : UInt32 → UInt32} {f : Base.U32 → Base.U32}
    (h : ∀ a, (f a).word = g a.word) (a : Base.U32) :
    u32 (g (UInt64.ofNat a.toNat).toUInt32) = outcome cids name (.u32 (f a)) :=
  u32_outcome (by rw [toUInt32_encode, h])

/-- An operation on two words. -/
theorem u32_binary {g : UInt32 → UInt32 → UInt32} {f : Base.U32 → Base.U32 → Base.U32}
    (h : ∀ a b, (f a b).word = g a.word b.word) (a b : Base.U32) :
    u32 (g (UInt64.ofNat a.toNat).toUInt32 (UInt64.ofNat b.toNat).toUInt32) =
      outcome cids name (.u32 (f a b)) :=
  u32_outcome (by rw [toUInt32_encode, toUInt32_encode, h])

theorem pakBool_outcome {condition value : Bool} (h : condition = value) :
    pakBool cids condition = outcome cids name (.bool value) := by
  subst h
  cases condition
  · exact congrArg (Except.map fun term => [term]) (termPak_cid cids.false)
  · exact congrArg (Except.map fun term => [term]) (termPak_cid cids.true)

/-- A comparison of two words. -/
theorem pakBool_binary {g : UInt32 → UInt32 → Bool} {f : Base.U32 → Base.U32 → Bool}
    (h : ∀ a b, f a b = g a.word b.word) (a b : Base.U32) :
    pakBool cids (g (UInt64.ofNat a.toNat).toUInt32 (UInt64.ofNat b.toNat).toUInt32) =
      outcome cids name (.bool (f a b)) :=
  pakBool_outcome (by rw [toUInt32_encode, toUInt32_encode, h])

theorem pakCmp_outcome {a b : UInt64} {value : Cmp}
    (h : value = if a.toNat < b.toNat then .LT else if a.toNat = b.toNat then .EQ else .GT) :
    pakCmp cids a b = outcome cids name (.cmp value) := by
  subst h
  unfold pakCmp
  by_cases hlt : a < b
  · rw [if_pos hlt, if_pos (UInt64.lt_iff_toNat_lt.mp hlt)]
    exact congrArg (Except.map fun term => [term]) (termPak_cid cids.lt)
  · rw [if_neg hlt, if_neg (mt UInt64.lt_iff_toNat_lt.mpr hlt)]
    by_cases heq : a = b
    · rw [if_pos heq, if_pos (congrArg UInt64.toNat heq)]
      exact congrArg (Except.map fun term => [term]) (termPak_cid cids.eq)
    · rw [if_neg heq, if_neg (mt UInt64.toNat_inj.mp heq)]
      exact congrArg (Except.map fun term => [term]) (termPak_cid cids.gt)

/-- A natural is checked. -/
theorem natChk_outcome {value : UInt64} {n : Nat} (h : value.toNat = n)
    (hname : n ≤ natImm.toNat ∨ overflow name = .natOverflow "Nat exceeds largest immediate") :
    (do return [← natChk value]) = outcome cids name (.nat n) := by
  subst h
  unfold natChk outcome
  by_cases hlarge : value > natImm
  · have hmore : ¬value.toNat ≤ natImm.toNat := Nat.not_le.mpr (UInt64.lt_iff_toNat_lt.mp hlarge)
    rw [if_pos hlarge, if_neg (show ¬(Datum.nat value.toNat).Fits from hmore),
      hname.resolve_left hmore]
    rfl
  · have hfits : value.toNat ≤ natImm.toNat :=
      Nat.not_lt.mp (mt UInt64.lt_iff_toNat_lt.mpr hlarge)
    rw [if_neg hlarge, if_pos (show (Datum.nat value.toNat).Fits from hfits)]
    simp only [Datum.encode, UInt64.ofNat_toNat]
    rfl

theorem nat_outcome {value : UInt64} {n : Nat} (h : value.toNat = n) (hn : n ≤ natImm.toNat) :
    (.ok [value] : Except Failure (List UInt64)) = outcome cids name (.nat n) := by
  rw [outcome, if_pos (show (Datum.nat n).Fits from hn), ← h]
  simp only [Datum.encode, UInt64.ofNat_toNat]

/-- The guard of a multiplication. -/
theorem mul_guard {a b : Nat} (ha : a ≤ natImm.toNat) (hb : b ≤ natImm.toNat) :
    (UInt64.ofNat b ≠ 0 ∧ UInt64.ofNat a > natImm / UInt64.ofNat b) ↔ natImm.toNat < a * b := by
  rw [natImm_eq] at ha hb
  rw [gt_iff_lt, UInt64.lt_iff_toNat_lt, UInt64.toNat_div, ne_eq, ← UInt64.toNat_inj,
    toNat_ofNat_of_le (by omega), toNat_ofNat_of_le (by omega)]
  rcases Nat.eq_zero_or_pos b with hzero | hpos
  · simp [hzero]
  · rw [Nat.div_lt_iff_lt_mul hpos]
    simp [Nat.ne_of_gt hpos]

/-- **A product fails if and only if it has no encoding.** -/
theorem natMul_outcome {a b : Nat} (ha : a ≤ natImm.toNat) (hb : b ≤ natImm.toNat) :
    (do return [← natMul (.ofNat a) (.ofNat b)]) = outcome cids .natMul (.nat (a * b)) := by
  have hguard := mul_guard ha hb
  rw [natImm_eq] at ha hb
  unfold natMul
  by_cases hfits : a * b ≤ natImm.toNat
  · rw [if_neg (mt hguard.mp (Nat.not_lt.mpr hfits))]
    refine natChk_outcome ?_ (.inl hfits)
    rw [natImm_eq] at hfits
    rw [UInt64.toNat_mul, toNat_ofNat_of_le (by omega), toNat_ofNat_of_le (by omega),
      Nat.mod_eq_of_lt (by omega)]
  · rw [if_pos (hguard.mpr (Nat.not_le.mp hfits)), outcome,
      if_neg (show ¬(Datum.nat (a * b)).Fits from hfits)]
    rfl

/-- The bound of a shift by 32 or more. -/
theorem shift_word {n : Nat} (hn : n ≤ natImm.toNat) (w : UInt32) :
    (if UInt64.ofNat n ≥ 32 then 0 else w) = if 32 ≤ n then 0 else w := by
  rw [natImm_eq] at hn
  have hlarge : UInt64.ofNat n ≥ 32 ↔ 32 ≤ n := by
    rw [ge_iff_le, UInt64.le_iff_toNat_le, toNat_ofNat_of_le (by omega)]
    rfl
  by_cases h : 32 ≤ n
  · rw [if_pos (hlarge.mpr h), if_pos h]
  · rw [if_neg (mt hlarge.mp h), if_neg h]

theorem toUInt32_ofNat (n : Nat) : (UInt64.ofNat n).toUInt32 = UInt32.ofNat n := by
  refine UInt32.toNat_inj.mp ?_
  rw [UInt64.toNat_toUInt32, UInt64.toNat_ofNat', UInt32.toNat_ofNat']
  omega

theorem bool_cid (value : Bool) :
    (termAux (Datum.pak (Datum.cidOfBool cids value)) == cids.true.toUInt64) = value := by
  have hne : cids.false ≠ cids.true := by
    have hnodup := cids.nodup
    simp only [List.nodup_cons, List.mem_cons, List.not_mem_nil, or_false] at hnodup
    exact hnodup.2.2.2.1
  rw [termAux_pak]
  cases value
  · rw [beq_eq_false_iff_ne]
    exact fun h => hne (UInt16.toUInt64_inj.mp h)
  · exact beq_self_eq_true _

/-- The guard of a division changes nothing. -/
theorem div_guard (a b : UInt32) : (if b = 0 then 0 else a / b) = a / b := by
  split
  · rename_i hzero
    rw [hzero, UInt32.div_zero]
  · rfl

theorem mod_guard (a b : UInt32) : (if b = 0 then a else a % b) = a % b := by
  split
  · rename_i hzero
    rw [hzero, UInt32.mod_zero]
  · rfl

theorem natSub_outcome {a b : Nat} (ha : a ≤ natImm.toNat) (hb : b ≤ natImm.toNat) :
    (.ok [if UInt64.ofNat a < .ofNat b then 0 else .ofNat a - .ofNat b] :
      Except Failure (List UInt64)) = outcome cids name (.nat (a - b)) := by
  rw [natImm_eq] at ha hb
  refine nat_outcome ?_ (by rw [natImm_eq]; omega)
  have hlt : UInt64.ofNat a < .ofNat b ↔ a < b := by
    rw [UInt64.lt_iff_toNat_lt, toNat_ofNat_of_le (by omega), toNat_ofNat_of_le (by omega)]
  by_cases h : a < b
  · rw [if_pos (hlt.mpr h), Nat.sub_eq_zero_of_le (Nat.le_of_lt h)]
    rfl
  · rw [if_neg (mt hlt.mp h), UInt64.toNat_sub, toNat_ofNat_of_le (by omega),
      toNat_ofNat_of_le (by omega)]
    omega

theorem natDivmod_outcome {a b : Nat} (ha : a ≤ natImm.toNat) (hb : b ≤ natImm.toNat) :
    (.ok [if UInt64.ofNat b = 0 then 0 else .ofNat a / .ofNat b,
      if UInt64.ofNat b = 0 then .ofNat a else .ofNat a % .ofNat b] :
      Except Failure (List UInt64)) = outcome cids name (.pair (a / b) (a % b)) := by
  have hdiv := Nat.div_le_self a b
  have hmod := Nat.mod_le a b
  have hfits : (Datum.pair (a / b) (a % b)).Fits :=
    ⟨Nat.le_trans hdiv ha, Nat.le_trans hmod ha⟩
  rw [natImm_eq] at ha hb
  have hquotient : UInt64.ofNat a / .ofNat b = .ofNat (a / b) := by
    rw [← UInt64.toNat_inj, UInt64.toNat_div, toNat_ofNat_of_le (by omega),
      toNat_ofNat_of_le (by omega), toNat_ofNat_of_le (by omega)]
  have hremainder : UInt64.ofNat a % .ofNat b = .ofNat (a % b) := by
    rw [← UInt64.toNat_inj, UInt64.toNat_mod, toNat_ofNat_of_le (by omega),
      toNat_ofNat_of_le (by omega), toNat_ofNat_of_le (by omega)]
  rw [outcome, if_pos hfits, Datum.encode, ← hquotient, ← hremainder]
  split
  · rename_i hzero
    rw [hzero, UInt64.div_zero, UInt64.mod_zero]
  · rfl

theorem fits_pair {a b : Nat} (h : ∀ argument ∈ [Datum.nat a, .nat b], argument.Fits) :
    a ≤ natImm.toNat ∧ b ≤ natImm.toNat :=
  ⟨h (.nat a) (.head _), h (.nat b) (.tail _ (.head _))⟩

/-- The sum of two immediate naturals is a word. -/
theorem toNat_sum {a b : Nat} (ha : a ≤ natImm.toNat) (hb : b ≤ natImm.toNat) :
    (UInt64.ofNat a + .ofNat b).toNat = a + b := by
  rw [natImm_eq] at ha hb
  rw [UInt64.toNat_add, toNat_ofNat_of_le (by omega), toNat_ofNat_of_le (by omega)]
  omega

/-- A shift by a natural. -/
theorem u32_shift {g : UInt32 → UInt32 → UInt32} {f : Base.U32 → Nat → Base.U32}
    (h : ∀ a n, (f a n).word = if 32 ≤ n then 0 else g a.word (.ofNat n)) (a : Base.U32) {n : Nat}
    (hn : (Datum.nat n).Fits) :
    u32 (if UInt64.ofNat n ≥ 32 then 0 else
      g (UInt64.ofNat a.toNat).toUInt32 (UInt64.ofNat n).toUInt32) =
      outcome cids name (.u32 (f a n)) :=
  u32_outcome (by rw [shift_word hn, toUInt32_encode, toUInt32_ofNat, h])

theorem isZero_outcome (a : Base.U32) :
    pakBool cids ((UInt64.ofNat a.toNat).toUInt32 == 0) =
      outcome cids name (.bool (Base.U32.isZero a)) :=
  pakBool_outcome (by rw [toUInt32_encode, Base.U32.isZero_eq])

theorem fromNat_outcome (n : Nat) :
    u32 (UInt64.ofNat n).toUInt32 = outcome cids name (.u32 (.fromNat n)) :=
  u32_outcome (by rw [Base.U32.word_fromNat, toUInt32_ofNat])

theorem toNat_outcome (a : Base.U32) :
    u32 (UInt64.ofNat a.toNat).toUInt32 = outcome cids name (.nat (Base.U32.toFinite a)) := by
  have ha := a.toNat_lt
  have hsame : Base.U32.toFinite a = a.toNat := Base.Word.toFinite_eq a.data
  refine nat_outcome ?_ (by rw [hsame, natImm_eq]; omega)
  rw [UInt32.toNat_toUInt64, toUInt32_encode, Base.U32.toNat_word, hsame]

/-- Naturals are compared. -/
theorem natCmp_outcome {a b : Nat} (ha : a < 2 ^ 64) (hb : b < 2 ^ 64) :
    pakCmp cids (.ofNat a) (.ofNat b) = outcome cids name
      (.cmp (if a < b then .LT else if a = b then .EQ else .GT)) :=
  pakCmp_outcome (by rw [toNat_ofNat_of_le ha, toNat_ofNat_of_le hb])

theorem natIsLt_outcome {a b : Nat} (ha : a < 2 ^ 64) (hb : b < 2 ^ 64) :
    pakBool cids (decide (UInt64.ofNat a < .ofNat b)) = outcome cids name (.bool (natIsLt a b)) :=
  pakBool_outcome (by
    rw [Base.natIsLt_eq, Bool.eq_iff_iff, decide_eq_true_iff, decide_eq_true_iff,
      UInt64.lt_iff_toNat_lt, toNat_ofNat_of_le ha, toNat_ofNat_of_le hb])

theorem boolOr_outcome (a b : Bool) :
    pakBool cids (termAux (Datum.pak (Datum.cidOfBool cids a)) == cids.true.toUInt64 ||
      termAux (Datum.pak (Datum.cidOfBool cids b)) == cids.true.toUInt64) =
      outcome cids name (.bool (boolOr a b)) :=
  pakBool_outcome (by rw [bool_cid, bool_cid]; cases a <;> rfl)

theorem boolXor_outcome (a b : Bool) :
    pakBool cids ((termAux (Datum.pak (Datum.cidOfBool cids a)) == cids.true.toUInt64) !=
      (termAux (Datum.pak (Datum.cidOfBool cids b)) == cids.true.toUInt64)) =
      outcome cids name (.bool (boolXor a b)) :=
  pakBool_outcome (by rw [bool_cid, bool_cid]; cases a <;> cases b <;> rfl)

theorem lt_of_fits {n : Nat} (hn : n ≤ natImm.toNat) : n < 2 ^ 64 := by
  rw [natImm_eq] at hn
  omega

/-- **Native operations compute what Base defines.** -/
theorem native_outcome {arguments : List Datum} {result : Datum}
    (hfits : ∀ argument ∈ arguments, argument.Fits) (h : base name arguments = some result) :
    native cids name (arguments.flatMap (Datum.encode cids)) = outcome cids name result := by
  unfold base at h
  split at h <;> cases h
  -- words
  · exact u32_binary Base.U32.word_add _ _
  · exact u32_binary Base.U32.word_sub _ _
  · exact u32_binary Base.U32.word_mul _ _
  · exact u32_binary Base.U32.word_and _ _
  · exact u32_binary Base.U32.word_or _ _
  · exact u32_binary Base.U32.word_xor _ _
  · exact (congrArg u32 (div_guard _ _)).trans (u32_binary Base.U32.word_div _ _)
  · exact (congrArg u32 (mod_guard _ _)).trans (u32_binary Base.U32.word_mod _ _)
  · exact u32_unary Base.U32.word_not _
  · exact u32_unary (g := (· + 1)) Base.U32.word_inc _
  · exact u32_unary (g := (· <<< 1)) Base.U32.word_shl _
  · exact u32_unary (g := (· >>> 1)) Base.U32.word_shr _
  · exact u32_shift Base.U32.word_shln _ (hfits _ (.tail _ (.head _)))
  · exact u32_shift Base.U32.word_shrn _ (hfits _ (.tail _ (.head _)))
  -- comparisons of words
  · exact pakBool_binary Base.U32.isEq_eq _ _
  · have hne (a b : Base.U32) : Base.U32.isNe a b = (a.word != b.word) :=
      congrArg (! ·) (Base.U32.isEq_eq a b)
    exact pakBool_binary hne _ _
  · exact pakBool_binary (g := fun a b => decide (a < b)) Base.U32.isLt_eq _ _
  · exact pakBool_binary (g := fun a b => decide (a ≤ b)) Base.U32.isLe_eq _ _
  · exact pakBool_binary (g := fun a b => decide (a > b)) Base.U32.isGt_eq _ _
  · exact pakBool_binary (g := fun a b => decide (a ≥ b)) Base.U32.isGe_eq _ _
  · exact isZero_outcome _
  · rename_i a b
    have ha := a.toNat_lt
    have hb := b.toNat_lt
    rw [Base.U32.cmp_eq]
    exact natCmp_outcome (by omega) (by omega)
  -- words and naturals
  · exact toNat_outcome _
  · exact fromNat_outcome _
  -- naturals
  · obtain ⟨ha, hb⟩ := fits_pair hfits
    rw [Base.Finite.natAdd_eq]
    exact natChk_outcome (toNat_sum ha hb) (.inr rfl)
  · obtain ⟨ha, hb⟩ := fits_pair hfits
    rw [Base.natSub_eq]
    exact natSub_outcome ha hb
  · obtain ⟨ha, hb⟩ := fits_pair hfits
    rw [Base.Finite.natMul_eq]
    exact natMul_outcome ha hb
  · have ha : (Datum.nat _).Fits := hfits _ (.head _)
    rw [Base.Finite.natDouble_eq]
    exact natChk_outcome (toNat_sum ha ha) (.inr rfl)
  · obtain ⟨ha, hb⟩ := fits_pair hfits
    rw [Base.natCmp_eq]
    exact natCmp_outcome (lt_of_fits ha) (lt_of_fits hb)
  · obtain ⟨ha, hb⟩ := fits_pair hfits
    exact natIsLt_outcome (lt_of_fits ha) (lt_of_fits hb)
  · obtain ⟨ha, hb⟩ := fits_pair hfits
    rw [Base.natDivmod_eq_all]
    exact natDivmod_outcome ha hb
  -- truth values
  · exact boolOr_outcome _ _
  · exact boolXor_outcome _ _

/-- **No 64-bit result wraps.** -/
theorem arithmetic_exact {arguments : List Datum} {result : Datum}
    (hfits : ∀ argument ∈ arguments, argument.Fits) (h : base name arguments = some result)
    {exact : Int} {machine : UInt64}
    (hmem : (exact, machine) ∈ arithmetic name (arguments.flatMap (Datum.encode cids))) :
    (machine.toNat : Int) = exact := by
  have hword : ∀ {n : Nat}, n ≤ natImm.toNat → (UInt64.ofNat n).toNat = n := by
    intro n hn
    rw [natImm_eq] at hn
    exact toNat_ofNat_of_le (by omega)
  unfold base at h
  split at h <;> cases h <;>
    simp only [arithmetic, Datum.encode, List.flatMap_cons, List.flatMap_nil, List.append_nil,
      List.cons_append, List.nil_append, List.headD_cons, List.getElem?_cons_succ,
      List.getElem?_cons_zero, Option.getD_some, List.not_mem_nil, List.mem_singleton,
      Prod.mk.injEq] at hmem
  · rename_i a b
    obtain ⟨ha, hb⟩ := fits_pair hfits
    obtain ⟨rfl, rfl⟩ := hmem
    rw [toNat_sum ha hb, hword ha, hword hb, Int.natCast_add]
  · rename_i a b
    obtain ⟨ha, hb⟩ := fits_pair hfits
    split at hmem
    · cases hmem
    · rename_i hle
      obtain ⟨rfl, rfl⟩ := Prod.mk.inj (List.mem_singleton.mp hmem)
      rw [UInt64.lt_iff_toNat_lt] at hle
      rw [UInt64.toNat_sub_of_le _ _ (UInt64.le_iff_toNat_le.mpr (Nat.not_lt.mp hle))]
      omega
  · rename_i a b
    obtain ⟨ha, hb⟩ := fits_pair hfits
    split at hmem
    · cases hmem
    · rename_i hguard
      obtain ⟨rfl, rfl⟩ := Prod.mk.inj (List.mem_singleton.mp hmem)
      have hproduct := (mul_guard ha hb).not.mp hguard
      rw [natImm_eq] at hproduct
      rw [UInt64.toNat_mul, hword ha, hword hb, Nat.mod_eq_of_lt (by omega), Int.natCast_mul]
  · rename_i a
    have ha : (Datum.nat a).Fits := hfits _ (.head _)
    obtain ⟨rfl, rfl⟩ := hmem
    rw [toNat_sum ha ha, hword ha, Int.natCast_add]

/-- The word of a step is the one that the operation gives back, or checks before it does. -/
theorem native_of_arithmetic {words : List UInt64} {exact : Int} {machine : UInt64}
    (hmem : (exact, machine) ∈ arithmetic name words) :
    native cids name words = .ok [machine] ∨
      native cids name words = (do return [← natChk machine]) := by
  cases name <;> simp only [arithmetic, List.mem_singleton, List.not_mem_nil] at hmem
  case natAdd =>
    obtain ⟨-, rfl⟩ := Prod.mk.inj hmem
    exact .inr rfl
  case natSub =>
    split at hmem
    · cases hmem
    · rename_i hle
      obtain ⟨-, rfl⟩ := Prod.mk.inj (List.mem_singleton.mp hmem)
      exact .inl (by rw [native, if_neg hle])
  case natMul =>
    split at hmem
    · cases hmem
    · rename_i hguard
      obtain ⟨-, rfl⟩ := Prod.mk.inj (List.mem_singleton.mp hmem)
      exact .inr (by rw [native, natMul, if_neg hguard])
  case natDouble =>
    obtain ⟨-, rfl⟩ := Prod.mk.inj hmem
    exact .inr rfl

/-- **The native operations of the C backend are those of Base.**

On the encodings of values whose naturals are immediate, an operation computes the encoding of what
the definition of the same name yields; `Nat.add`, `Nat.mul` and `Nat.double` fail if and only if
the result is not immediate, and no other operation fails.  No 64-bit result wraps: the word that an
operation gives back, or checks, is the number that it is to be. -/
theorem native_base (cids : Cids) {name : Native} {arguments : List Datum} {result : Datum}
    (hfits : ∀ argument ∈ arguments, argument.Fits) (h : base name arguments = some result) :
    (result.Fits →
      native cids name (arguments.flatMap (Datum.encode cids)) = .ok (result.encode cids)) ∧
    (¬result.Fits → (name = .natAdd ∨ name = .natMul ∨ name = .natDouble) ∧
      native cids name (arguments.flatMap (Datum.encode cids)) = .error (overflow name)) ∧
    ∀ exact machine, (exact, machine) ∈ arithmetic name (arguments.flatMap (Datum.encode cids)) →
      (machine.toNat : Int) = exact ∧
        (native cids name (arguments.flatMap (Datum.encode cids)) = .ok [machine] ∨
          native cids name (arguments.flatMap (Datum.encode cids)) =
            (do return [← natChk machine])) := by
  have houtcome : native cids name _ = outcome cids name result := native_outcome hfits h
  refine ⟨fun hresult => houtcome.trans (if_pos hresult), fun hresult => ⟨?_,
    houtcome.trans (if_neg hresult)⟩, fun _ _ hmem => ⟨arithmetic_exact hfits h hmem,
    native_of_arithmetic hmem⟩⟩
  unfold base at h
  split at h <;> cases h <;> try exact absurd trivial hresult
  · rename_i a
    have hsame : Base.U32.toFinite a = a.toNat := Base.Word.toFinite_eq a.data
    refine absurd (show Base.U32.toFinite a ≤ natImm.toNat from ?_) hresult
    have ha := a.toNat_lt
    rw [hsame, natImm_eq]
    omega
  · exact .inl rfl
  · rename_i a b
    refine absurd (show natSub a b ≤ natImm.toNat from ?_) hresult
    rw [Base.natSub_eq]
    exact Nat.le_trans (Nat.sub_le a b) (fits_pair hfits).1
  · exact .inr (.inl rfl)
  · exact .inr (.inr rfl)
  · rename_i a b
    refine absurd ?_ hresult
    rw [Base.natDivmod_eq_all]
    have ha := (fits_pair hfits).1
    exact ⟨Nat.le_trans (Nat.div_le_self a b) ha, Nat.le_trans (Nat.mod_le a b) ha⟩

/-- Three and four are immediate, and so is their sum. -/
theorem native_base_seven :
    native ⟨0, 1, 2, 3, 4, by decide⟩ .natAdd [3, 4] = .ok [7] :=
  have hfits : ∀ argument ∈ [Datum.nat 3, .nat 4], argument.Fits := by decide
  (native_base _ hfits (rfl : base .natAdd _ = some (.nat 7))).1 (by decide)

end Results

end TeamyBend.Compiler
