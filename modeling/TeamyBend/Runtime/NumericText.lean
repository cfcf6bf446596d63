/-
# Reading hexadecimal numbers

`hexadecimal` of `numeric_text.rs` reads `1F.8p-3` into the bits of a binary32 number.  It keeps
the first 32 significant bits and whether any later bit is set, so a text of any length is read in
one pass, and then shifts and rounds those.

A text is its bytes.  A shift by a count outside of 0..32, a slice past the end or a failed
conversion would stop the program; each of them is a `Fault` of the model, and the result says
that none is reached.  A slice always starts behind an ASCII byte, so it is a text again.

The text spells a rational number (`Spells`), and the result is that number rounded to nearest
with ties to even (`Library.BinaryFormat.Rounds`).
-/
import TeamyBend.Library.BinaryFormat
import Mathlib.Data.Nat.Size
import Mathlib.Data.UInt

namespace TeamyBend.Runtime.NumericText

open TeamyBend.Library
open TeamyBend.Library.BinaryFormat (roundedShift roundedShift_succ rounds_roundedShift
  rounds_infinity)

/-! ## 1. The reader -/

/-- What stops the program. -/
inductive Fault where
  | Shift
  | Slice
  | Conversion
  deriving Repr, DecidableEq

/-- `a << n` on `u32`. -/
def shl (a : Nat) (n : Int) : Except Fault Nat :=
  if 0 ≤ n ∧ n < 32 then .ok (a <<< n.toNat % 2 ^ 32) else .error .Shift

/-- `a >> n` on `u32`. -/
def shr (a : Nat) (n : Int) : Except Fault Nat :=
  if 0 ≤ n ∧ n < 32 then .ok (a >>> n.toNat) else .error .Shift

/-- `&text[start..]`. -/
def slice (text : List UInt8) (start : Nat) : Except Fault (List UInt8) :=
  if start ≤ text.length then .ok (text.drop start) else .error .Slice

/-- `u32::try_from(n).expect(..)`. -/
def toU32 (n : Int) : Except Fault Nat :=
  if 0 ≤ n ∧ n < 2 ^ 32 then .ok n.toNat else .error .Conversion

/-- `char::from(byte).to_digit(16)`. -/
def toDigit (byte : UInt8) : Option Nat :=
  if 48 ≤ byte.toNat ∧ byte.toNat ≤ 57 then some (byte.toNat - 48)
  else if 65 ≤ byte.toNat ∧ byte.toNat ≤ 70 then some (byte.toNat - 55)
  else if 97 ≤ byte.toNat ∧ byte.toNat ≤ 102 then some (byte.toNat - 87)
  else none

/-- The bits read so far: `prefix`, `bit_count` and `sticky`. -/
structure Mantissa where
  head : Nat
  bitCount : Nat
  sticky : Bool
  deriving Repr, DecidableEq

/-- The body of the loop over the bits of a digit. -/
def Mantissa.bit (m : Mantissa) (bit : Nat) : Mantissa :=
  if m.bitCount = 0 ∧ bit = 0 then m
  else if m.bitCount + 1 ≤ 32 then
    { m with bitCount := m.bitCount + 1, head := (m.head <<< 1 % 2 ^ 32) ||| bit }
  else { m with bitCount := m.bitCount + 1, sticky := m.sticky || decide (bit ≠ 0) }

/-- `for shift in (0..4).rev()`. -/
def Mantissa.digit (m : Mantissa) (digit : Nat) : Mantissa :=
  [3, 2, 1, 0].foldl (fun m shift => m.bit ((digit >>> shift) &&& 1)) m

/-- The variables of the loop over the bytes. -/
structure Scan where
  mantissa : Mantissa
  afterDot : Bool
  fractionalDigits : Nat
  digits : Nat
  deriving Repr, DecidableEq

/-- The variables before the loop. -/
def Scan.start : Scan := ⟨⟨0, 0, false⟩, false, 0, 0⟩

/-- The end of the loop body. -/
def Scan.digit (s : Scan) (digit : Nat) : Scan :=
  { s with
    mantissa := s.mantissa.digit digit
    fractionalDigits := s.fractionalDigits + if s.afterDot then 1 else 0
    digits := s.digits + 1 }

/-- The loop over the bytes from `index` on: its variables at the end and `exponent_start`, or
nothing at a byte that is not a digit. -/
def scan (length : Nat) : Nat → List UInt8 → Scan → Option (Scan × Nat)
  | _, [], s => some (s, length)
  | index, byte :: bytes, s =>
    if byte = 46 ∧ s.afterDot = false then
      scan length (index + 1) bytes { s with afterDot := true }
    else if byte = 112 ∨ byte = 80 then some (s, index)
    else
      match toDigit byte with
      | none => none
      | some digit => scan length (index + 1) bytes (s.digit digit)

/-- The loop of `binary_exponent`. -/
def exponentDigits : Int → List UInt8 → Option Int
  | exponent, [] => some exponent
  | exponent, byte :: bytes =>
    if 48 ≤ byte.toNat ∧ byte.toNat ≤ 57 then
      exponentDigits (min (exponent * 10 + (byte.toNat - 48 : Nat)) 1000000000) bytes
    else none

/-- The sign of an exponent and its digits. -/
def signAndDigits (text : List UInt8) : Except Fault (Bool × List UInt8) :=
  if text.head? = some 45 then (slice text 1).map fun digits => (true, digits)
  else if text.head? = some 43 then (slice text 1).map fun digits => (false, digits)
  else .ok (false, text)

/-- `binary_exponent`. -/
def binaryExponent (text : List UInt8) : Except Fault (Option Int) := do
  let (negative, digits) ← signAndDigits text
  if digits.isEmpty then return none
  else return (exponentDigits 0 digits).map fun e => if negative then -e else e

/-- The bits of the prefix that are kept; a shift by 32 would not be one. -/
def integerPart (head : Nat) (discarded : Int) : Except Fault Nat :=
  if discarded = 32 then .ok 0 else shr head discarded

/-- The significand of a number with this many bits kept, before the exponent is put on. -/
def significandOf (m : Mantissa) (kept : Int) : Except Fault Nat :=
  if (m.bitCount : Int) ≤ kept then shl m.head (kept - m.bitCount)
  else do
    let discarded := min (m.bitCount : Int) 32 - kept
    let integer ← integerPart m.head discarded
    let guard := (← shr m.head (discarded - 1)) &&& 1
    let mask := (← shl 1 (discarded - 1)) - 1
    let lower := decide (m.head &&& mask ≠ 0) || m.sticky
    return integer + if guard ≠ 0 ∧ (lower = true ∨ integer &&& 1 ≠ 0) then 1 else 0

/-- The end of `hexadecimal`, from the exponent of the highest bit on. -/
def assemble (m : Mantissa) (highest : Int) : Except Fault Nat :=
  if highest > 127 then return 0x7f800000
  else if highest < -150 then return 0
  else do
    let significand ← significandOf m (if highest ≥ -126 then 24 else highest + 150)
    if highest < -126 then return significand
    else
      let (significand, highest) :=
        if significand = 1 <<< 24 then (significand >>> 1, highest + 1) else (significand, highest)
      if highest > 127 then return 0x7f800000
      else
        let exponentBits ← toU32 (highest + 127)
        return (exponentBits <<< 23) ||| (significand &&& 0x007fffff)

/-- The exponent of `hexadecimal`, once the loop has stopped. -/
def exponentAt (text : List UInt8) (exponentStart : Nat) : Except Fault (Option Int) :=
  if exponentStart = text.length then .ok (some 0)
  else slice text (exponentStart + 1) >>= binaryExponent

/-- `hexadecimal` from the test of `bit_count` on. -/
def finish (s : Scan) (exponent : Int) : Except Fault (Option Nat) :=
  if s.mantissa.bitCount = 0 then .ok (some 0)
  else
    (assemble s.mantissa (exponent - 4 * s.fractionalDigits + s.mantissa.bitCount - 1)).map some

/-- `hexadecimal`. -/
def hexadecimal (text : List UInt8) : Except Fault (Option Nat) :=
  match scan text.length 0 text .start with
  | none => .ok none
  | some (s, exponentStart) =>
    if s.digits = 0 then .ok none
    else
      match exponentAt text exponentStart with
      | .error fault => .error fault
      | .ok none => .ok none
      | .ok (some exponent) => finish s exponent

/-! ## 2. What a text spells -/

/-- A hexadecimal digit. -/
def IsHex (byte : UInt8) : Prop := (toDigit byte).isSome

/-- A decimal digit. -/
def IsDecimal (byte : UInt8) : Prop := 48 ≤ byte.toNat ∧ byte.toNat ≤ 57

/-- The number that hexadecimal digits spell. -/
def hexNumber (digits : List UInt8) : Nat :=
  digits.foldl (fun n byte => 16 * n + (toDigit byte).getD 0) 0

/-- The number that decimal digits spell. -/
def decimalNumber (digits : List UInt8) : Nat :=
  digits.foldl (fun n byte => 10 * n + (byte.toNat - 48)) 0

/-- The end of a number: nothing, or a letter, a sign or none, and at least one digit. -/
inductive Exponent : List UInt8 → Int → Prop where
  | absent : Exponent [] 0
  | plain {p : UInt8} {ds : List UInt8} (hp : p = 112 ∨ p = 80) (hne : ds ≠ [])
      (hds : ∀ b ∈ ds, IsDecimal b) : Exponent (p :: ds) (decimalNumber ds)
  | plus {p : UInt8} {ds : List UInt8} (hp : p = 112 ∨ p = 80) (hne : ds ≠ [])
      (hds : ∀ b ∈ ds, IsDecimal b) : Exponent (p :: 43 :: ds) (decimalNumber ds)
  | minus {p : UInt8} {ds : List UInt8} (hp : p = 112 ∨ p = 80) (hne : ds ≠ [])
      (hds : ∀ b ∈ ds, IsDecimal b) : Exponent (p :: 45 :: ds) (-decimalNumber ds)

/-- **The number a text spells**: hexadecimal digits, at least one, with a dot or none among
them, then an exponent. -/
inductive Spells : List UInt8 → ℚ → Prop where
  | whole {ds exponent : List UInt8} {e : Int} (hds : ∀ b ∈ ds, IsHex b) (hne : ds ≠ [])
      (he : Exponent exponent e) : Spells (ds ++ exponent) (hexNumber ds * 2 ^ e)
  | dotted {ds fs exponent : List UInt8} {e : Int} (hds : ∀ b ∈ ds, IsHex b)
      (hfs : ∀ b ∈ fs, IsHex b) (hne : ds ++ fs ≠ []) (he : Exponent exponent e) :
      Spells (ds ++ 46 :: (fs ++ exponent)) (hexNumber (ds ++ fs) * 2 ^ (e - 4 * fs.length))

/-- IEEE binary32, by its positive encodings. -/
def binary32 : BinaryFormat := ⟨23, -149, 255, by decide⟩

/-! ## 3. The mantissa -/

/-- What the loop keeps of a number: its first 32 bits, how many it has, and whether any of the
others is set. -/
def Mantissa.of (n : Nat) : Mantissa :=
  ⟨n / 2 ^ (n.size - 32), n.size, decide (n % 2 ^ (n.size - 32) ≠ 0)⟩

theorem size_step {n bit : Nat} (hbit : bit < 2) (hne : ¬(n = 0 ∧ bit = 0)) :
    (2 * n + bit).size = n.size + 1 := by
  have hdouble : ∀ b : Bool, n.bit b ≠ 0 → (n.bit b).size = n.size + 1 := fun b h => Nat.size_bit h
  rcases (by omega : bit = 0 ∨ bit = 1) with rfl | rfl
  · have h := hdouble false (by simp; omega)
    rwa [Nat.bit_false_apply] at h
  · have h := hdouble true (by simp)
    rwa [Nat.bit_true_apply] at h

/-- One more bit. -/
theorem Mantissa.bit_of {n bit : Nat} (hbit : bit < 2) :
    (Mantissa.of n).bit bit = Mantissa.of (2 * n + bit) := by
  by_cases hzero : n = 0 ∧ bit = 0
  · obtain ⟨rfl, rfl⟩ := hzero
    rfl
  have hsize := size_step hbit hzero
  have hcount : ¬((Mantissa.of n).bitCount = 0 ∧ bit = 0) := by
    rintro ⟨hn, hb⟩
    exact hzero ⟨Nat.size_eq_zero.mp hn, hb⟩
  rw [Mantissa.bit, if_neg hcount]
  by_cases hfits : n.size + 1 ≤ 32
  · -- the bits still fit, so none was dropped
    have hlt : n < 2 ^ 31 := Nat.size_le.mp (by omega)
    have hshift : n <<< 1 % 2 ^ 32 = n <<< 1 := by
      refine Nat.mod_eq_of_lt ?_
      rw [Nat.shiftLeft_eq]
      omega
    have hor : n <<< 1 ||| bit = 2 * n + bit := by
      rw [← Nat.shiftLeft_add_eq_or_of_lt (by simpa using hbit), Nat.shiftLeft_eq, Nat.pow_one,
        Nat.mul_comm]
    have hnone : n.size - 32 = 0 := by omega
    have hnone' : n.size + 1 - 32 = 0 := by omega
    simp only [Mantissa.of, hsize, hnone, hnone', Nat.pow_zero, Nat.div_one, Nat.mod_one, hshift,
      hor, if_pos hfits]
  · have hsub : n.size + 1 - 32 = (n.size - 32) + 1 := by omega
    have hdiv : (2 * n + bit) / 2 ^ (n.size - 32 + 1) = n / 2 ^ (n.size - 32) := by
      rw [Nat.pow_succ', ← Nat.div_div_eq_div_mul]
      congr 1
      omega
    have hmod : (2 * n + bit) % 2 ^ (n.size - 32 + 1) = 2 * (n % 2 ^ (n.size - 32)) + bit := by
      rw [Nat.pow_succ', Nat.mod_mul]
      have hhalf : (2 * n + bit) / 2 = n := by omega
      rw [hhalf]
      omega
    have hsticky : (decide (n % 2 ^ (n.size - 32) ≠ 0) || decide (bit ≠ 0)) =
        decide (2 * (n % 2 ^ (n.size - 32)) + bit ≠ 0) := by
      rw [Bool.eq_iff_iff]
      simp only [Bool.or_eq_true, decide_eq_true_eq]
      omega
    simp only [Mantissa.of, hsize, hsub, hdiv, hmod, hsticky, if_neg hfits]

/-- One more digit. -/
theorem Mantissa.digit_of {n digit : Nat} (hdigit : digit < 16) :
    (Mantissa.of n).digit digit = Mantissa.of (16 * n + digit) := by
  have hbit : ∀ shift, (digit >>> shift) &&& 1 = digit / 2 ^ shift % 2 := by
    intro shift
    rw [Nat.shiftRight_eq_div_pow, Nat.and_one_is_mod]
  simp only [Mantissa.digit, List.foldl_cons, List.foldl_nil, hbit]
  rw [bit_of (Nat.mod_lt _ (by decide)), bit_of (Nat.mod_lt _ (by decide)),
    bit_of (Nat.mod_lt _ (by decide)), bit_of (Nat.mod_lt _ (by decide))]
  congr 1
  omega

theorem toDigit_lt {byte : UInt8} {digit : Nat} (h : toDigit byte = some digit) : digit < 16 := by
  unfold toDigit at h
  split_ifs at h
  all_goals
    simp only [Option.some.injEq] at h
    omega

/-! ## 4. Reading digits -/

theorem hexNumber_append (ds : List UInt8) (byte : UInt8) :
    hexNumber (ds ++ [byte]) = 16 * hexNumber ds + (toDigit byte).getD 0 := by
  simp [hexNumber]

/-- The variables after some digits. -/
def Scan.after (ds fs : List UInt8) (afterDot : Bool) : Scan :=
  ⟨.of (hexNumber (ds ++ fs)), afterDot, fs.length, (ds ++ fs).length⟩

/-- A digit is neither a dot nor the letter of an exponent. -/
theorem IsHex.cases {byte : UInt8} (h : IsHex byte) :
    ∃ digit, toDigit byte = some digit ∧ byte ≠ 46 ∧ ¬(byte = 112 ∨ byte = 80) := by
  obtain ⟨digit, hdigit⟩ := Option.isSome_iff_exists.mp h
  refine ⟨digit, hdigit, ?_, ?_⟩
  · rintro rfl
    cases hdigit
  · rintro (rfl | rfl)
    · cases hdigit
    · cases hdigit

/-- Digits before the dot. -/
theorem scan_whole {length index : Nat} {ds es rest : List UInt8} (hes : ∀ b ∈ es, IsHex b) :
    scan length index (es ++ rest) (.after ds [] false) =
      scan length (index + es.length) rest (.after (ds ++ es) [] false) := by
  induction es generalizing index ds with
  | nil => simp
  | cons byte es ih =>
    obtain ⟨digit, hdigit, hdot, hletter⟩ := (hes byte (List.mem_cons_self ..)).cases
    have hnext : (Scan.after ds [] false).digit digit = .after (ds ++ [byte]) [] false := by
      simp [Scan.after, Scan.digit, hexNumber_append, hdigit, Mantissa.digit_of (toDigit_lt hdigit)]
    rw [List.cons_append, scan, if_neg (fun h => hdot h.1), if_neg hletter, hdigit]
    simp only
    rw [hnext, ih fun b hb => hes b (List.mem_cons_of_mem _ hb), List.append_assoc,
      List.singleton_append, List.length_cons, Nat.add_assoc, Nat.add_comm 1]

/-- Digits behind the dot. -/
theorem scan_fraction {length index : Nat} {ds fs es rest : List UInt8} (hes : ∀ b ∈ es, IsHex b) :
    scan length index (es ++ rest) (.after ds fs true) =
      scan length (index + es.length) rest (.after ds (fs ++ es) true) := by
  induction es generalizing index fs with
  | nil => simp
  | cons byte es ih =>
    obtain ⟨digit, hdigit, hdot, hletter⟩ := (hes byte (List.mem_cons_self ..)).cases
    have hnext : (Scan.after ds fs true).digit digit = .after ds (fs ++ [byte]) true := by
      simp [Scan.after, Scan.digit, ← List.append_assoc, hexNumber_append, hdigit,
        Mantissa.digit_of (toDigit_lt hdigit), Nat.add_assoc]
    rw [List.cons_append, scan, if_neg (fun h => hdot h.1), if_neg hletter, hdigit]
    simp only
    rw [hnext, ih fun b hb => hes b (List.mem_cons_of_mem _ hb), List.append_assoc,
      List.singleton_append, List.length_cons, Nat.add_assoc, Nat.add_comm 1]

/-! ## 5. Reading exponents -/

/-- An exponent as the reader keeps it. -/
def clamp (e : Int) : Int := max (-1000000000) (min e 1000000000)

/-- Digits keep the number below the bound, and past it the bound. -/
theorem exponentDigits_of {ds : List UInt8} (hds : ∀ b ∈ ds, IsDecimal b) (n : Nat) :
    exponentDigits (min (n : Int) 1000000000) ds =
      some (min ((ds.foldl (fun n byte => 10 * n + (byte.toNat - 48)) n : Nat) : Int)
        1000000000) := by
  induction ds generalizing n with
  | nil => rfl
  | cons byte ds ih =>
    have hbyte : 48 ≤ byte.toNat ∧ byte.toNat ≤ 57 := hds byte (List.mem_cons_self ..)
    have hnext : min (min (n : Int) 1000000000 * 10 + (byte.toNat - 48 : Nat)) 1000000000 =
        min ((10 * n + (byte.toNat - 48) : Nat) : Int) 1000000000 := by omega
    rw [exponentDigits, if_pos hbyte, hnext, ih fun b hb => hds b (List.mem_cons_of_mem _ hb),
      List.foldl_cons]

theorem exponentDigits_isSome {ds : List UInt8} {n e : Int} (h : exponentDigits n ds = some e) :
    ∀ b ∈ ds, IsDecimal b := by
  induction ds generalizing n with
  | nil => simp
  | cons byte ds ih =>
    rw [exponentDigits] at h
    split at h
    · rename_i hbyte
      simpa using ⟨hbyte, ih h⟩
    · cases h

/-- A digit is not a sign. -/
theorem signAndDigits_plain {ds : List UInt8} (hds : ∀ b ∈ ds, IsDecimal b) :
    signAndDigits ds = .ok (false, ds) := by
  have hhead : ∀ sign : UInt8, ¬IsDecimal sign → ds.head? ≠ some sign :=
    fun sign hsign h => hsign (hds sign (List.mem_of_head? h))
  rw [signAndDigits, if_neg (hhead 45 (by unfold IsDecimal; decide)),
    if_neg (hhead 43 (by unfold IsDecimal; decide))]

theorem signAndDigits_minus (ds : List UInt8) : signAndDigits (45 :: ds) = .ok (true, ds) := by
  simp [signAndDigits, slice, Except.map]

theorem signAndDigits_plus (ds : List UInt8) : signAndDigits (43 :: ds) = .ok (false, ds) := by
  simp [signAndDigits, slice, Except.map]

/-- The digits behind a sign. -/
theorem binaryExponent_digits {text ds : List UInt8} {negative : Bool}
    (hsign : signAndDigits text = .ok (negative, ds)) (hne : ds ≠ [])
    (hds : ∀ b ∈ ds, IsDecimal b) :
    binaryExponent text =
      .ok (some (if negative then -(min (decimalNumber ds : Int) 1000000000)
        else min (decimalNumber ds : Int) 1000000000)) := by
  have hdigits := exponentDigits_of hds 0
  have hzero : min ((0 : Nat) : Int) 1000000000 = 0 := by decide
  rw [hzero] at hdigits
  have hempty : ds.isEmpty = false := by simpa using hne
  simp only [binaryExponent, hsign, bind, Except.bind, hempty, Bool.false_eq_true, if_false,
    hdigits, decimalNumber]
  rfl

/-- **A well-formed exponent is read**, up to the bound. -/
theorem binaryExponent_of {p : UInt8} {text : List UInt8} {e : Int} (h : Exponent (p :: text) e) :
    binaryExponent text = .ok (some (clamp e)) := by
  have hclamp : ∀ n : Nat, min (n : Int) 1000000000 = clamp n := by
    intro n
    rw [clamp]
    omega
  have hclamp' : ∀ n : Nat, -min (n : Int) 1000000000 = clamp (-n) := by
    intro n
    rw [clamp]
    omega
  cases h with
  | plain hp hne hds =>
    rw [binaryExponent_digits (signAndDigits_plain hds) hne hds, ← hclamp]
    rfl
  | plus hp hne hds =>
    rw [binaryExponent_digits (signAndDigits_plus _) hne hds, ← hclamp]
    rfl
  | minus hp hne hds =>
    rw [binaryExponent_digits (signAndDigits_minus _) hne hds, ← hclamp']
    rfl

/-- **Only well-formed exponents are read.** -/
theorem exponent_of_binaryExponent {p : UInt8} (hp : p = 112 ∨ p = 80) (text : List UInt8) :
    binaryExponent text = .ok none ∨ ∃ e, Exponent (p :: text) e := by
  have hread : ∀ negative ds, signAndDigits text = .ok (negative, ds) →
      ((ds ≠ [] → (∀ b ∈ ds, IsDecimal b) → ∃ e, Exponent (p :: text) e)) →
      binaryExponent text = .ok none ∨ ∃ e, Exponent (p :: text) e := by
    intro negative ds hsign hform
    by_cases hne : ds = []
    · left
      simp [binaryExponent, hsign, bind, Except.bind, hne, pure, Except.pure]
    · cases hdigits : exponentDigits 0 ds with
      | none =>
        left
        simp [binaryExponent, hsign, bind, Except.bind, hne, hdigits, pure, Except.pure]
      | some e => exact .inr (hform hne (exponentDigits_isSome hdigits))
  cases text with
  | nil => exact hread false [] rfl fun hne => absurd rfl hne
  | cons sign ds =>
    by_cases hminus : sign = 45
    · subst hminus
      exact hread true ds (signAndDigits_minus ds) fun hne hds => ⟨_, .minus hp hne hds⟩
    · by_cases hplus : sign = 43
      · subst hplus
        exact hread false ds (signAndDigits_plus ds) fun hne hds => ⟨_, .plus hp hne hds⟩
      · refine hread false (sign :: ds) ?_ fun hne hds => ⟨_, .plain hp hne hds⟩
        simp [signAndDigits, hminus, hplus]

/-! ## 6. Rounding -/

section Round

variable {n : Nat}

/-- A positive number lies between two powers of two. -/
theorem size_bounds (hn : 0 < n) : 2 ^ (n.size - 1) ≤ n ∧ n < 2 ^ n.size ∧ 0 < n.size := by
  have hpos := Nat.size_pos.mpr hn
  exact ⟨Nat.lt_size.mp (by omega), Nat.lt_size_self n, hpos⟩

/-- **The significand is the number shifted and rounded.**  The guard bit and what is below it say
how the dropped bits compare with half. -/
theorem significandOf_shift {kept : Nat} (hkept : kept ≤ 24) (hlt : kept < n.size) :
    significandOf (.of n) kept = .ok (roundedShift n (n.size - kept)) := by
  obtain ⟨dd, hdd⟩ : ∃ dd : Nat, min n.size 32 - kept = dd + 1 :=
    ⟨min n.size 32 - kept - 1, by omega⟩
  have hd : n.size - kept = (n.size - 32) + dd + 1 := by omega
  have hdiscarded : min (n.size : Int) 32 - kept = (dd + 1 : Nat) := by omega
  have hdd32 : dd + 1 ≤ 32 := by omega
  have hdiv : ∀ j, n / 2 ^ (n.size - 32) / 2 ^ j = n / 2 ^ (n.size - 32 + j) := by
    intro j
    rw [Nat.div_div_eq_div_mul, ← Nat.pow_add]
  have hmask : 1 <<< dd % 2 ^ 32 - 1 = 2 ^ dd - 1 := by
    rw [Nat.one_shiftLeft, Nat.mod_eq_of_lt (Nat.pow_lt_pow_right (by decide) (by omega))]
  -- all 32 bits are dropped where nothing is kept
  have hinteger : integerPart (n / 2 ^ (n.size - 32)) (dd + 1 : Nat) =
      .ok (n / 2 ^ (n.size - 32 + (dd + 1))) := by
    rw [integerPart]
    split
    · rename_i hall
      have hlt : n < 2 ^ (n.size - 32 + (dd + 1)) :=
        Nat.size_le.mp (by omega)
      rw [Nat.div_eq_of_lt hlt]
    · rw [shr, if_pos (by omega), Int.toNat_natCast, Nat.shiftRight_eq_div_pow, hdiv]
  have hguard : shr (n / 2 ^ (n.size - 32)) (((dd + 1 : Nat) : Int) - 1) =
      .ok (n / 2 ^ (n.size - 32 + dd)) := by
    have hpred : ((dd + 1 : Nat) : Int) - 1 = dd := by omega
    rw [hpred, shr, if_pos (by omega), Int.toNat_natCast, Nat.shiftRight_eq_div_pow, hdiv]
  have hone : shl 1 (((dd + 1 : Nat) : Int) - 1) = .ok (1 <<< dd % 2 ^ 32) := by
    have hpred : ((dd + 1 : Nat) : Int) - 1 = dd := by omega
    rw [hpred, shl, if_pos (by omega), Int.toNat_natCast]
  have hlower : (decide (n / 2 ^ (n.size - 32) &&& (2 ^ dd - 1) ≠ 0) ||
      decide (n % 2 ^ (n.size - 32) ≠ 0)) = decide (n % 2 ^ (n.size - 32 + dd) ≠ 0) := by
    rw [Nat.and_two_pow_sub_one_eq_mod, Nat.pow_add, Nat.mod_mul, Bool.eq_iff_iff]
    simp only [Bool.or_eq_true, decide_eq_true_eq]
    have hpos := Nat.two_pow_pos (n.size - 32)
    constructor
    · rintro (h | h)
      · have := Nat.mul_pos hpos (Nat.pos_of_ne_zero h)
        omega
      · omega
    · intro h
      by_contra hboth
      simp only [not_or, not_not] at hboth
      simp [hboth] at h
  have hbig : ¬((Mantissa.of n).bitCount : Int) ≤ kept := by
    simp only [Mantissa.of]
    omega
  rw [significandOf, if_neg hbig]
  simp only [Mantissa.of, hdiscarded, hinteger, hguard, hone, hmask, hlower, bind, Except.bind,
    Nat.and_one_is_mod, pure, Except.pure]
  rw [hd, roundedShift_succ]
  simp only [decide_eq_true_eq, Nat.add_assoc]

/-- A number that fits is shifted up. -/
theorem significandOf_exact {kept : Nat} (hkept : kept ≤ 24) (hle : n.size ≤ kept) :
    significandOf (.of n) kept = .ok (n * 2 ^ (kept - n.size)) := by
  have hlt : n < 2 ^ n.size := Nat.lt_size_self n
  have hsub : n.size - 32 = 0 := by omega
  have hcast : (kept : Int) - n.size = (kept - n.size : Nat) := by omega
  have hprod : n * 2 ^ (kept - n.size) < 2 ^ 32 := by
    calc n * 2 ^ (kept - n.size) < 2 ^ n.size * 2 ^ (kept - n.size) :=
          Nat.mul_lt_mul_of_pos_right hlt (Nat.two_pow_pos _)
      _ = 2 ^ kept := by rw [← Nat.pow_add, Nat.add_sub_cancel' hle]
      _ ≤ 2 ^ 32 := Nat.pow_le_pow_right (by decide) (by omega)
  rw [significandOf, if_pos (by simpa [Mantissa.of] using hle)]
  simp only [Mantissa.of, hsub, hcast, shl, Nat.pow_zero, Nat.div_one, Int.toNat_natCast,
    Nat.shiftLeft_eq, Nat.mod_eq_of_lt hprod]
  rw [if_pos (by omega)]

theorem value_infinity : binary32.value binary32.infinity = 2 ^ (128 : Int) := by
  have hsteps := binary32.value_at (s := 253) (n := 2 ^ 24) (by decide) (.inr (by decide))
  have hinfinity : binary32.infinity = 253 * 2 ^ binary32.fraction + 2 ^ 24 := by decide
  rw [hinfinity, hsteps, BinaryFormat.ulp]
  norm_num [binary32]

/-- Past the greatest exponent. -/
theorem rounds_large (hn : 0 < n) {e : Int} (h : 127 < e + n.size - 1) :
    binary32.Rounds (n * 2 ^ e) 0x7f800000 := by
  obtain ⟨hlo, -, hpos⟩ := size_bounds hn
  refine rounds_infinity (F := binary32) ?_
  rw [value_infinity]
  have hcast : (2 : ℚ) ^ (n.size - 1) ≤ n := by exact_mod_cast hlo
  calc (2 : ℚ) ^ (128 : Int) ≤ 2 ^ (e + n.size - 1) := zpow_le_zpow_right₀ (by norm_num) (by omega)
    _ = 2 ^ (n.size - 1) * 2 ^ e := by
      rw [← zpow_natCast, ← zpow_add₀ (by norm_num)]
      congr 1
      omega
    _ ≤ n * 2 ^ e := mul_le_mul_of_nonneg_right hcast (le_of_lt (zpow_pos (by norm_num) _))

/-- Below half of the least positive number. -/
theorem rounds_small {e : Int} (h : e + n.size - 1 < -150) :
    binary32.Rounds (n * 2 ^ e) 0 := by
  obtain ⟨d, hd⟩ : ∃ d : Nat, e = -149 + ((0 : Nat) : Int) - d :=
    ⟨(-149 - e).toNat, by omega⟩
  have hlt : n < 2 ^ (d - 1) := Nat.size_le.mp (by omega)
  have hdouble : 2 ^ d = 2 * 2 ^ (d - 1) := by
    rw [← Nat.pow_succ', Nat.succ_eq_add_one, Nat.sub_add_cancel (by omega)]
  have hless : n < 2 ^ d := by omega
  have hrounds := rounds_roundedShift (F := binary32) (m := n) (d := d) (s := 0)
    (by rw [Nat.div_eq_of_lt hless]; exact Nat.two_pow_pos _) (.inl rfl) (by decide)
  have hzero : roundedShift n d = 0 := by
    rw [roundedShift, Nat.div_eq_of_lt hless, Nat.mod_eq_of_lt hless, if_neg (by omega)]
  rw [hzero] at hrounds
  rw [hd]
  exact hrounds

/-- **The significand, put on its exponent, is the rounded number.** -/
theorem significand_rounds (hn : 0 < n) {e : Int} {kept s : Nat} (hkept : kept ≤ 24)
    (hs : s = 0 ∨ kept = 24) (htop : s ≤ 253) (he : e + n.size - kept = -149 + (s : Int)) :
    ∃ significand, significandOf (.of n) kept = .ok significand ∧ significand ≤ 2 ^ kept ∧
      (kept = 24 → 2 ^ 23 ≤ significand) ∧
      binary32.Rounds (n * 2 ^ e) (s * 2 ^ 23 + significand) := by
  obtain ⟨hlo, hhi, hpos⟩ := size_bounds hn
  have hformat : binary32.least = -149 ∧ binary32.fraction = 23 ∧ binary32.top = 255 :=
    ⟨rfl, rfl, rfl⟩
  obtain ⟨hleast, hfraction, htop'⟩ := hformat
  have hpow : (2 : Nat) ^ kept ≤ 2 ^ 24 := Nat.pow_le_pow_right (by decide) hkept
  rcases Nat.lt_or_ge kept n.size with hlt | hle
  · have hbelow : n / 2 ^ (n.size - kept) < 2 ^ kept := by
      rw [Nat.div_lt_iff_lt_mul (Nat.two_pow_pos _), ← Nat.pow_add,
        Nat.add_sub_cancel' (Nat.le_of_lt hlt)]
      exact hhi
    have habove : kept = 24 → 2 ^ 23 ≤ n / 2 ^ (n.size - kept) := by
      rintro rfl
      rw [Nat.le_div_iff_mul_le (Nat.two_pow_pos _), ← Nat.pow_add,
        show 23 + (n.size - 24) = n.size - 1 by omega]
      exact hlo
    have hrounded : n / 2 ^ (n.size - kept) ≤ roundedShift n (n.size - kept) ∧
        roundedShift n (n.size - kept) ≤ n / 2 ^ (n.size - kept) + 1 := by
      rw [roundedShift]
      split
      · omega
      · omega
    have hrounds := rounds_roundedShift (F := binary32) (m := n) (d := n.size - kept) (s := s)
      (by rw [hfraction]; omega) (by rw [hfraction]; exact hs.imp_right habove) (by omega)
    rw [hleast, hfraction, ← he, show e + (n.size : Int) - kept - (n.size - kept : Nat) = e by
      omega] at hrounds
    refine ⟨_, significandOf_shift hkept hlt, by omega, fun hk => ?_, hrounds⟩
    exact Nat.le_trans (habove hk) hrounded.1
  · have hbelow : n * 2 ^ (kept - n.size) < 2 ^ kept := by
      calc n * 2 ^ (kept - n.size) < 2 ^ n.size * 2 ^ (kept - n.size) :=
            Nat.mul_lt_mul_of_pos_right hhi (Nat.two_pow_pos _)
        _ = 2 ^ kept := by rw [← Nat.pow_add, Nat.add_sub_cancel' hle]
    have habove : kept = 24 → 2 ^ 23 ≤ n * 2 ^ (kept - n.size) := by
      rintro rfl
      calc 2 ^ 23 = 2 ^ (n.size - 1) * 2 ^ (24 - n.size) := by
            rw [← Nat.pow_add]
            congr 1
            omega
        _ ≤ n * 2 ^ (24 - n.size) := Nat.mul_le_mul_right _ hlo
    have hexact : roundedShift (n * 2 ^ (kept - n.size)) 0 = n * 2 ^ (kept - n.size) := by
      simp [roundedShift, Nat.mod_one]
    have hrounds := rounds_roundedShift (F := binary32) (m := n * 2 ^ (kept - n.size)) (d := 0)
      (s := s) (by rw [hfraction, Nat.pow_zero, Nat.div_one]; omega)
      (by rw [hfraction, Nat.pow_zero, Nat.div_one]; exact hs.imp_right habove) (by omega)
    have hvalue : ((n * 2 ^ (kept - n.size) : Nat) : ℚ) * 2 ^ (-149 + (s : Int) - (0 : Nat)) =
        n * 2 ^ e := by
      rw [Nat.cast_mul, Nat.cast_pow, Nat.cast_ofNat, ← zpow_natCast, mul_assoc,
        ← zpow_add₀ (by norm_num), ← he]
      congr 2
      omega
    rw [hleast, hfraction, hexact, hvalue] at hrounds
    exact ⟨_, significandOf_exact hkept hle, Nat.le_of_lt hbelow, habove, hrounds⟩

/-- The fields of a normal number. -/
theorem fields_eq {exponent significand : Nat} (hlo : 2 ^ 23 ≤ significand)
    (hhi : significand < 2 ^ 24) :
    (exponent + 1) <<< 23 ||| (significand &&& 0x007fffff) =
      exponent * 2 ^ 23 + significand := by
  have hmask : significand &&& 0x007fffff = significand % 2 ^ 23 :=
    Nat.and_two_pow_sub_one_eq_mod significand 23
  have hmod : significand % 2 ^ 23 < 2 ^ 23 := Nat.mod_lt _ (by decide)
  rw [hmask, ← Nat.shiftLeft_add_eq_or_of_lt hmod, Nat.shiftLeft_eq]
  omega

/-- **Rounding and assembling.** -/
theorem assemble_rounds (hn : 0 < n) (e : Int) :
    ∃ bits, assemble (.of n) (e + n.size - 1) = .ok bits ∧
      binary32.Rounds (n * 2 ^ e) bits := by
  rcases lt_or_ge 127 (e + n.size - 1) with hlarge | hle
  · exact ⟨_, by rw [assemble, if_pos hlarge]; rfl, rounds_large hn hlarge⟩
  rcases lt_or_ge (e + n.size - 1) (-150) with hsmall | hge
  · exact ⟨_, by rw [assemble, if_neg (by omega), if_pos hsmall]; rfl, rounds_small hsmall⟩
  rw [assemble, if_neg (by omega), if_neg (by omega)]
  rcases lt_or_ge (e + n.size - 1) (-126) with hsubnormal | hnormal
  · obtain ⟨kept, hkept⟩ : ∃ kept : Nat, e + n.size - 1 + 150 = kept :=
      ⟨(e + n.size - 1 + 150).toNat, by omega⟩
    obtain ⟨significand, hrun, -, -, hrounds⟩ :=
      significand_rounds hn (e := e) (s := 0) (show kept ≤ 24 by omega) (.inl rfl) (by decide)
        (by omega)
    rw [if_neg (by omega), hkept, hrun]
    simp only [bind, Except.bind]
    rw [if_pos hsubnormal]
    refine ⟨significand, rfl, ?_⟩
    simpa using hrounds
  · obtain ⟨s, hs⟩ : ∃ s : Nat, e + n.size - 1 = (s : Int) - 126 :=
      ⟨(e + n.size - 1 + 126).toNat, by omega⟩
    obtain ⟨significand, hrun, hbound, hleading, hrounds⟩ :=
      significand_rounds hn (e := e) (s := s) (Nat.le_refl 24) (.inr rfl) (by omega)
        (by push_cast; omega)
    replace hleading := hleading rfl
    replace hrun : significandOf (.of n) 24 = .ok significand := hrun
    rw [if_pos hnormal, hrun, hs]
    simp only [bind, Except.bind]
    rw [if_neg (by omega)]
    by_cases hcarry : significand = 2 ^ 24
    · -- the carry goes into the exponent, and from the greatest one to infinity
      have hcarry' : significand = 1 <<< 24 := hcarry
      simp only [if_pos hcarry']
      rw [hcarry] at hrounds
      by_cases htop : (s : Int) - 126 + 1 > 127
      · obtain rfl : s = 253 := by omega
        rw [if_pos htop]
        exact ⟨_, rfl, hrounds⟩
      · have hexponent : toU32 ((s : Int) - 126 + 1 + 127) = .ok (s + 1 + 1) := by
          rw [toU32, if_pos (by omega)]
          congr 1
          omega
        rw [if_neg htop, hexponent, hcarry]
        refine ⟨_, rfl, ?_⟩
        rw [show (2 ^ 24 : Nat) >>> 1 = 2 ^ 23 by decide, fields_eq (Nat.le_refl _) (by decide)]
        rwa [Nat.succ_mul, Nat.add_assoc]
    · have hcarry' : ¬significand = 1 <<< 24 := hcarry
      have hexponent : toU32 ((s : Int) - 126 + 127) = .ok (s + 1) := by
        rw [toU32, if_pos (by omega)]
        congr 1
        omega
      simp only [if_neg hcarry']
      rw [if_neg (by omega), hexponent]
      exact ⟨_, rfl, by rwa [fields_eq hleading (by omega)]⟩

end Round

/-! ## 7. The reader and the number -/

/-- 8 MiB, the longest text the runtime reads. -/
def textLimit : Nat := 8388608

theorem start_eq_after : Scan.start = .after [] [] false := by
  simp [Scan.start, Scan.after, Mantissa.of, hexNumber]

theorem hexNumber_size {ds : List UInt8} (hds : ∀ b ∈ ds, IsHex b) :
    (hexNumber ds).size ≤ 4 * ds.length := by
  induction ds using List.reverseRecOn with
  | nil => simp [hexNumber]
  | append_singleton ds byte ih =>
    obtain ⟨digit, hdigit, -, -⟩ := (hds byte (by simp)).cases
    have hlt := toDigit_lt hdigit
    have hrest := Nat.size_le.mp (ih fun b hb => hds b (List.mem_append_left _ hb))
    refine Nat.size_le.mpr ?_
    have hpow : 2 ^ (4 * (ds ++ [byte]).length) = 16 * 2 ^ (4 * ds.length) := by
      rw [List.length_append, List.length_singleton, Nat.mul_add, Nat.pow_add]
      ring
    rw [hexNumber_append, hdigit, hpow, Option.getD_some]
    omega

/-- The number and its exponent, once both are read. -/
theorem finish_rounds {n f : Nat} (hsize : n.size ≤ 4 * textLimit) (hf : f ≤ textLimit) (e : Int)
    (dot : Bool) (digits : Nat) :
    ∃ bits, finish ⟨.of n, dot, f, digits⟩ (clamp e) = .ok (some bits) ∧
      binary32.Rounds (n * 2 ^ (e - 4 * f)) bits := by
  by_cases hzero : n = 0
  · subst hzero
    have hsmall := rounds_small (n := 0) (e := -200) (by decide)
    refine ⟨0, rfl, ?_⟩
    simpa using hsmall
  have hn : 0 < n := Nat.pos_of_ne_zero hzero
  have hcount := (size_bounds hn).2.2
  have hfinish : ∀ e, finish ⟨.of n, dot, f, digits⟩ e =
      (assemble (.of n) (e - 4 * f + n.size - 1)).map some := fun e => if_neg (Nat.ne_of_gt hcount)
  unfold textLimit at hsize hf
  rcases lt_or_ge 1000000000 e with hlarge | hle
  · -- past the bound the exponent decides alone
    have hclamp : clamp e = 1000000000 := by
      rw [clamp]
      omega
    refine ⟨0x7f800000, ?_, rounds_large hn (by omega)⟩
    rw [hfinish, hclamp, assemble, if_pos (by omega)]
    rfl
  rcases lt_or_ge e (-1000000000) with hsmall | hge
  · have hclamp : clamp e = -1000000000 := by
      rw [clamp]
      omega
    refine ⟨0, ?_, rounds_small (by omega)⟩
    rw [hfinish, hclamp, assemble, if_neg (by omega), if_pos (by omega)]
    rfl
  · have hclamp : clamp e = e := by
      rw [clamp]
      omega
    obtain ⟨bits, hrun, hrounds⟩ := assemble_rounds hn (e - 4 * f)
    refine ⟨bits, ?_, hrounds⟩
    rw [hfinish, hclamp, hrun]
    rfl

/-- Where the scan stops: at the end or at the letter of an exponent. -/
def stop (length index : Nat) (rest : List UInt8) : Nat := if rest = [] then length else index

theorem scan_stop {length index : Nat} {rest : List UInt8} {e : Int} (he : Exponent rest e)
    (s : Scan) : scan length index rest s = some (s, stop length index rest) := by
  have hletter : ∀ {p : UInt8} {tl : List UInt8}, p = 112 ∨ p = 80 →
      scan length index (p :: tl) s = some (s, index) := by
    intro p tl hp
    have hdot : ¬(p = 46 ∧ s.afterDot = false) := by
      rintro ⟨rfl, -⟩
      rcases hp with hp | hp
      · cases hp
      · cases hp
    rw [scan, if_neg hdot, if_pos hp]
  cases he with
  | absent => rfl
  | plain hp | plus hp | minus hp => exact hletter hp

theorem slice_behind (front : List UInt8) (p : UInt8) (tl : List UInt8) :
    slice (front ++ p :: tl) (front.length + 1) = .ok tl := by
  have hsplit : front ++ p :: tl = (front ++ [p]) ++ tl := by simp
  rw [slice, if_pos (by simp), hsplit, List.drop_left' (by simp)]

theorem exponentAt_of {front rest : List UInt8} {e : Int} (he : Exponent rest e) :
    exponentAt (front ++ rest) (stop (front ++ rest).length front.length rest) =
      .ok (some (clamp e)) := by
  cases rest with
  | nil =>
    cases he
    rw [stop, if_pos rfl, exponentAt, if_pos rfl]
    rfl
  | cons p tl =>
    rw [stop, if_neg (by simp), exponentAt, if_neg (by simp), slice_behind]
    exact binaryExponent_of he

/-- **What was scanned is rounded**, and its exponent read. -/
theorem hexadecimal_of_scan {front rest ds fs : List UInt8} {dot : Bool} {e : Int}
    (hscan : scan (front ++ rest).length 0 (front ++ rest) .start =
      some (.after ds fs dot, stop (front ++ rest).length front.length rest))
    (hds : ∀ b ∈ ds ++ fs, IsHex b) (hne : ds ++ fs ≠ []) (hlen : (ds ++ fs).length ≤ textLimit)
    (he : Exponent rest e) :
    ∃ bits, hexadecimal (front ++ rest) = .ok (some bits) ∧
      binary32.Rounds (hexNumber (ds ++ fs) * 2 ^ (e - 4 * fs.length)) bits := by
  have hfs : fs.length ≤ (ds ++ fs).length := by simp
  have hsize := Nat.le_trans (hexNumber_size hds) (Nat.mul_le_mul_left 4 hlen)
  obtain ⟨bits, hfinish, hrounds⟩ :=
    finish_rounds hsize (Nat.le_trans hfs hlen) e dot (ds ++ fs).length
  refine ⟨bits, ?_, hrounds⟩
  have hdigits : ¬(Scan.after ds fs dot).digits = 0 := by simpa [Scan.after] using hne
  rw [hexadecimal, hscan]
  simp only [if_neg hdigits, exponentAt_of he]
  exact hfinish

/-- **A number that is spelled is read.** -/
theorem hexadecimal_of_spells {text : List UInt8} {q : ℚ} (h : Spells text q)
    (hlen : text.length ≤ textLimit) :
    ∃ bits, hexadecimal text = .ok (some bits) ∧ binary32.Rounds q bits := by
  cases h with
  | @whole ds rest e hds hne he =>
    have hscan : scan (ds ++ rest).length 0 (ds ++ rest) .start =
        some (.after ds [] false, stop (ds ++ rest).length ds.length rest) := by
      rw [start_eq_after, scan_whole hds, Nat.zero_add, List.nil_append]
      exact scan_stop he _
    have hlen' : (ds ++ []).length ≤ textLimit := by
      rw [List.append_nil]
      exact Nat.le_trans (by simp) hlen
    obtain ⟨bits, hread, hrounds⟩ := hexadecimal_of_scan hscan (by simpa using hds)
      (by simpa using hne) hlen' he
    exact ⟨bits, hread, by simpa using hrounds⟩
  | @dotted ds fs rest e hds hfs hne he =>
    have hsplit : ds ++ 46 :: (fs ++ rest) = (ds ++ 46 :: fs) ++ rest := by simp
    rw [hsplit] at hlen ⊢
    have hindex : 0 + ds.length + 1 + fs.length = (ds ++ 46 :: fs).length := by
      simp
      omega
    have hscan : scan ((ds ++ 46 :: fs) ++ rest).length 0 ((ds ++ 46 :: fs) ++ rest) .start =
        some (.after ds fs true,
          stop ((ds ++ 46 :: fs) ++ rest).length (ds ++ 46 :: fs).length rest) := by
      have hdot : ({ Scan.after ds [] false with afterDot := true } : Scan) =
          .after ds [] true := rfl
      rw [start_eq_after]
      nth_rewrite 2 [← hsplit]
      rw [scan_whole hds, scan, if_pos ⟨rfl, rfl⟩, List.nil_append, hdot, scan_fraction hfs, hindex]
      exact scan_stop he _
    have hall : ∀ b ∈ ds ++ fs, IsHex b := by
      intro b hb
      exact (List.mem_append.mp hb).elim (hds b) (hfs b)
    exact hexadecimal_of_scan hscan hall hne (Nat.le_trans (by simp; omega) hlen) he

/-! ## 8. Only numbers are read -/

/-- The digits a text starts with. -/
theorem exists_digits (text : List UInt8) : ∃ ds rest, text = ds ++ rest ∧ (∀ b ∈ ds, IsHex b) ∧
    ∀ b tl, rest = b :: tl → toDigit b = none := by
  induction text with
  | nil => exact ⟨[], [], rfl, by simp, by simp⟩
  | cons byte text ih =>
    cases hdigit : toDigit byte with
    | none =>
      refine ⟨[], byte :: text, rfl, by simp, ?_⟩
      rintro b tl ⟨⟩
      exact hdigit
    | some digit =>
      obtain ⟨ds, rest, rfl, hds, hrest⟩ := ih
      refine ⟨byte :: ds, rest, rfl, ?_, hrest⟩
      simpa [IsHex, hdigit] using hds

/-- Where the scan comes to an end behind the digits, the rest is an exponent or nothing is read. -/
theorem hexadecimal_rest {front rest ds fs : List UInt8} {dot : Bool}
    (hscan : scan (front ++ rest).length 0 (front ++ rest) .start =
      scan (front ++ rest).length front.length rest (.after ds fs dot))
    (hrest : ∀ b tl, rest = b :: tl → toDigit b = none ∧ ¬(b = 46 ∧ dot = false)) :
    hexadecimal (front ++ rest) = .ok none ∨ ds ++ fs ≠ [] ∧ ∃ e, Exponent rest e := by
  cases rest with
  | nil =>
    by_cases hne : ds ++ fs = []
    · left
      rw [hexadecimal, hscan, scan]
      simp [Scan.after, hne]
    · exact .inr ⟨hne, 0, .absent⟩
  | cons b tl =>
    obtain ⟨hdigit, hnodot⟩ := hrest b tl rfl
    have hdot : ¬(b = 46 ∧ (Scan.after ds fs dot).afterDot = false) := hnodot
    by_cases hletter : b = 112 ∨ b = 80
    · have hstop : scan (front ++ b :: tl).length 0 (front ++ b :: tl) .start =
          some (.after ds fs dot, front.length) := by
        rw [hscan, scan, if_neg hdot, if_pos hletter]
      by_cases hne : ds ++ fs = []
      · left
        rw [hexadecimal, hstop]
        simp [Scan.after, hne]
      · rcases exponent_of_binaryExponent hletter tl with hnone | he
        · left
          have hexponent : exponentAt (front ++ b :: tl) front.length = .ok none := by
            rw [exponentAt, if_neg (by simp), slice_behind]
            exact hnone
          rw [hexadecimal, hstop]
          simp only [hexponent]
          split <;> rfl
        · exact .inr ⟨hne, he⟩
    · left
      rw [hexadecimal, hscan, scan, if_neg hdot, if_neg hletter, hdigit]

/-- **What spells no number is not read.** -/
theorem spells_or_none (text : List UInt8) :
    hexadecimal text = .ok none ∨ ∃ q, Spells text q := by
  obtain ⟨ds, rest, rfl, hds, hrest⟩ := exists_digits text
  have hscan : scan (ds ++ rest).length 0 (ds ++ rest) .start =
      scan (ds ++ rest).length ds.length rest (.after ds [] false) := by
    rw [start_eq_after, scan_whole hds, Nat.zero_add, List.nil_append]
  by_cases hdot : ∃ tl, rest = 46 :: tl
  · obtain ⟨tl, rfl⟩ := hdot
    obtain ⟨fs, rest, rfl, hfs, hrest'⟩ := exists_digits tl
    have hsplit : ds ++ 46 :: (fs ++ rest) = (ds ++ 46 :: fs) ++ rest := by simp
    have hindex : ds.length + 1 + fs.length = (ds ++ 46 :: fs).length := by
      simp
      omega
    have hscan' : scan ((ds ++ 46 :: fs) ++ rest).length 0 ((ds ++ 46 :: fs) ++ rest) .start =
        scan ((ds ++ 46 :: fs) ++ rest).length (ds ++ 46 :: fs).length rest
          (.after ds fs true) := by
      have hafter : ({ Scan.after ds [] false with afterDot := true } : Scan) =
          .after ds [] true := rfl
      rw [← hsplit, hscan, scan, if_pos ⟨rfl, rfl⟩, hafter, scan_fraction hfs, hindex,
        List.nil_append]
    rcases hexadecimal_rest hscan' fun b tl h => ⟨hrest' b tl h, by simp⟩ with hnone | ⟨hne, e, he⟩
    · rw [hsplit]
      exact .inl hnone
    · exact .inr ⟨_, .dotted hds hfs hne he⟩
  · have hrest' : ∀ b tl, rest = b :: tl → toDigit b = none ∧ ¬(b = 46 ∧ false = false) := by
      rintro b tl rfl
      refine ⟨hrest b tl rfl, ?_⟩
      rintro ⟨rfl, -⟩
      exact hdot ⟨tl, rfl⟩
    rcases hexadecimal_rest hscan hrest' with hnone | ⟨hne, e, he⟩
    · exact .inl hnone
    · exact .inr ⟨_, .whole hds (by simpa using hne) he⟩

/-- **Hexadecimal reading is correctly rounded.**  A text of at most 8 MiB stops the program
nowhere; it is read exactly when it spells a number; and the bits are those of that number rounded
to the nearest binary32 number, ties to even, infinity from half a unit above the greatest finite
one on. -/
theorem hexadecimal_rounds {text : List UInt8} (hlen : text.length ≤ textLimit) :
    ∃ read, hexadecimal text = .ok read ∧ (read = none ↔ ¬∃ q, Spells text q) ∧
      ∀ q, Spells text q → ∃ bits, read = some bits ∧ binary32.Rounds q bits := by
  by_cases hspells : ∃ q, Spells text q
  · obtain ⟨q, hq⟩ := hspells
    obtain ⟨bits, hread, -⟩ := hexadecimal_of_spells hq hlen
    refine ⟨some bits, hread, ?_, fun q' hq' => ?_⟩
    · simpa using ⟨q, hq⟩
    · obtain ⟨bits', hread', hrounds⟩ := hexadecimal_of_spells hq' hlen
      rw [hread] at hread'
      cases hread'
      exact ⟨bits, rfl, hrounds⟩
  · rcases spells_or_none text with hnone | hsome
    · exact ⟨none, hnone, iff_of_true rfl hspells, fun q hq => absurd ⟨q, hq⟩ hspells⟩
    · exact absurd hsome hspells

/-- The text `1.8p1`. -/
theorem hexadecimal_rounds_three :
    ∃ bits, hexadecimal [49, 46, 56, 112, 49] = .ok (some bits) ∧ binary32.Rounds 3 bits := by
  obtain ⟨read, hrun, -, hspelled⟩ := @hexadecimal_rounds [49, 46, 56, 112, 49] (by decide)
  have hspells : Spells [49, 46, 56, 112, 49] 3 := by
    have hexponent : Exponent [112, 49] 1 :=
      .plain (.inl rfl) (by simp) (List.forall_mem_singleton.2 (by unfold IsDecimal; decide))
    have hdotted := @Spells.dotted [49] [56] [112, 49] 1
      (List.forall_mem_singleton.2 (by unfold IsHex; decide))
      (List.forall_mem_singleton.2 (by unfold IsHex; decide)) (by simp) hexponent
    have hnumber : hexNumber [49, 56] = 24 := by decide
    have hvalue : ((hexNumber ([49] ++ [56]) : Nat) : ℚ) *
        2 ^ ((1 : Int) - 4 * ([56] : List UInt8).length) = 3 := by
      rw [show ([49] ++ [56] : List UInt8) = [49, 56] from rfl, hnumber]
      norm_num
    rwa [hvalue] at hdotted
  obtain ⟨bits, rfl, hrounds⟩ := hspelled 3 hspells
  exact ⟨bits, hrun, hrounds⟩

end TeamyBend.Runtime.NumericText
