/-
# Native text

File and console text is bytes outside of the runtime and 32-bit characters inside.  Two codecs
are written separately: `encode_native_char` and `decode_native_text` of the runtime, and
`io_utf8` and `io_str` of the generated C program.  They use the shape of UTF-8 without its
checks: any character is encoded, and any bytes are decoded.

The decoder reads from the end.  It counts up to three continuation bytes back, and where the byte
before them announces as many, all of them are one character; otherwise the last byte is one.  So
every byte string falls into chunks (`Chunks`), each of which gives one character, and the chunks
of an encoded text are its encoded characters.

An index past the end would stop the program; it is a failure of the model, and no run has it.
-/
import Mathlib.Data.UInt
import Mathlib.Data.Nat.Bitwise
import Mathlib.Data.List.Basic
import Mathlib.Tactic.Ring

namespace TeamyBend.Runtime.NativeText

/-! ## 1. The codec of the runtime -/

/-- `Failure`, with an index past the end. -/
inductive Failure where
  | Limit (message : String)
  | OutOfBounds
  deriving Repr, DecidableEq

/-- `bytes[index]`. -/
def byteAt (bytes : List UInt8) (index : Nat) : Except Failure UInt8 :=
  match bytes[index]? with
  | some byte => .ok byte
  | none => .error .OutOfBounds

/-- The loop over `continuation_count`, as often as it may still count. -/
def continuationCount (bytes : List UInt8) (remaining : Nat) : Nat → Nat → Except Failure Nat
  | 0, count => return count
  | left + 1, count =>
    if count + 1 < remaining then do
      let byte ← byteAt bytes (remaining - 1 - count)
      if byte &&& 0xc0 = 0x80 then continuationCount bytes remaining left (count + 1)
      else return count
    else return count

/-- How many bytes a first byte announces. -/
def announced (first : UInt8) : Nat :=
  if first < 0xc0 then 0 else if first < 0xe0 then 2 else if first < 0xf0 then 3 else 4

/-- `for index in 1..len`. -/
def codepointOf (bytes : List UInt8) (start : Nat) : List Nat → UInt32 → Except Failure UInt32
  | [], codepoint => return codepoint
  | index :: indices, codepoint => do
    let byte ← byteAt bytes (start + index)
    codepointOf bytes start indices ((codepoint <<< 6) ||| (byte &&& 0x3f).toUInt32)

/-- One turn of the loop of `decode_native_text`: the last character and how many bytes it has. -/
def decodeLast (bytes : List UInt8) (remaining : Nat) : Except Failure (UInt32 × Nat) := do
  let count ← continuationCount bytes remaining 3 0
  let first ← byteAt bytes (remaining - 1 - count)
  let last ← byteAt bytes (remaining - 1)
  if announced first = count + 1 then
    let codepoint ← codepointOf bytes (remaining - announced first)
      (List.range' 1 (announced first - 1))
      (first &&& (0x7f >>> (announced first).toUInt8)).toUInt32
    return (codepoint, announced first)
  else return (last.toUInt32, 1)

/-- The loop of `decode_native_text`, for a number of turns, with the characters pushed so far. -/
def decodeLoop (bytes : List UInt8) : Nat → Nat → List UInt32 → Except Failure (List UInt32)
  | _, 0, text => return text
  | 0, _ + 1, _ => .error (.Limit "no turns left")
  | turns + 1, remaining + 1, text => do
    let (codepoint, len) ← decodeLast bytes (remaining + 1)
    decodeLoop bytes turns (remaining + 1 - len) (text ++ [codepoint])

/-- `decode_native_text`. -/
def decodeNativeText (bytes : List UInt8) (byteLimit : Nat) : Except Failure (List UInt32) :=
  if byteLimit < bytes.length then .error (.Limit "native text exceeds byte budget")
  else (decodeLoop bytes bytes.length bytes.length []).map List.reverse

/-- The length of an encoded character. -/
def encodedLength (codepoint : UInt32) : Nat :=
  if codepoint < 0x80 then 1 else if codepoint < 0x800 then 2 else if codepoint < 0x10000 then 3
  else 4

/-- `for index in (1..len).rev()`. -/
def encodeTail : Nat → List UInt8 → UInt32 → List UInt8 × UInt32
  | 0, bytes, codepoint => (bytes, codepoint)
  | index + 1, bytes, codepoint =>
    encodeTail index (bytes.set (index + 1) (0x80 ||| (codepoint &&& 0x3f).toUInt8))
      (codepoint >>> 6)

/-- `encode_native_char`: four bytes and how many of them are used. -/
def encodeNativeChar (codepoint : UInt32) : List UInt8 × Nat :=
  let len := encodedLength codepoint
  let (bytes, rest) := encodeTail (len - 1) [0, 0, 0, 0] codepoint
  let first := if len = 1 then rest else (0xf00 >>> len.toUInt32) ||| rest
  (bytes.set 0 first.toUInt8, len)

/-- `&bytes[..length]` of `read_text`. -/
def encoded (codepoint : UInt32) : List UInt8 :=
  (encodeNativeChar codepoint).1.take (encodeNativeChar codepoint).2

/-! ## 2. The codec of the generated program -/

/-- The loop of `io_utf8`, down from `index`. -/
def ioUtf8Tail : Nat → List UInt8 → UInt64 → List UInt8 × UInt64
  | index + 2, buffer, character =>
    ioUtf8Tail (index + 1) (buffer.set (index + 1) (0x80 ||| (character &&& 63)).toUInt8)
      (character >>> 6)
  | _, buffer, character => (buffer, character)

/-- `io_utf8`: the buffer and how many bytes were written. -/
def ioUtf8 (buffer : List UInt8) (character : UInt64) : List UInt8 × Nat :=
  let count :=
    if character < 0x80 then 1 else if character < 0x800 then 2
    else if character < 0x10000 then 3 else 4
  let (buffer, rest) := ioUtf8Tail count buffer character
  (buffer.set 0 (if count = 1 then rest else (0xf00 >>> count.toUInt64) ||| rest).toUInt8, count)

/-- The first inner loop of `io_str`. -/
def ioBack (text : List UInt8) (length : Nat) : Nat → Nat → Except Failure Nat
  | 0, back => return back
  | left + 1, back =>
    if back + 1 < length then do
      let byte ← byteAt text (length - 1 - back)
      if byte &&& 0xc0 = 0x80 then ioBack text length left (back + 1) else return back
    else return back

/-- The second inner loop of `io_str`. -/
def ioCharacter (text : List UInt8) (start : Nat) : List Nat → UInt64 → Except Failure UInt64
  | [], character => return character
  | index :: indices, character => do
    let byte ← byteAt text (start + index)
    ioCharacter text start indices ((character <<< 6) ||| (byte &&& 63).toUInt64)

/-- One turn of `io_str`: a character and its number of bytes. -/
def ioLast (text : List UInt8) (length : Nat) : Except Failure (UInt64 × Nat) := do
  let back ← ioBack text length 3 0
  let first ← byteAt text (length - 1 - back)
  let last ← byteAt text (length - 1)
  let count := if first < 0xc0 then 0 else if first < 0xe0 then 2 else if first < 0xf0 then 3 else 4
  if count = back + 1 then
    let character ← ioCharacter text (length - count) (List.range' 1 (count - 1))
      (first.toUInt64 &&& (0x7f >>> count.toUInt64))
    return (character, count)
  else return (last.toUInt64, 1)

/-- The loop of `io_str`, for a number of turns, with the string built so far. -/
def ioLoop (text : List UInt8) : Nat → Nat → List UInt64 → Except Failure (List UInt64)
  | _, 0, string => return string
  | 0, _ + 1, _ => .error (.Limit "no turns left")
  | turns + 1, length + 1, string => do
    let (character, count) ← ioLast text (length + 1)
    ioLoop text turns (length + 1 - count) (character :: string)

/-- `io_str`, below the greatest buffer. -/
def ioStr (text : List UInt8) (maxHostBuffer : Nat) : Except Failure (List UInt64) :=
  if maxHostBuffer < text.length then .error (.Limit "text byte budget exhausted")
  else ioLoop text text.length text.length []

/-! ## 3. Bytes as numbers -/

/-- A continuation byte. -/
def Continues (b : UInt8) : Prop := b &&& 0xc0 = 0x80

instance (b : UInt8) : Decidable (Continues b) := inferInstanceAs (Decidable (_ = _))

theorem continues_iff {b : UInt8} : Continues b ↔ 128 ≤ b.toNat ∧ b.toNat < 192 := by
  have hall : ∀ n : Fin 256, n.val &&& 192 = 128 ↔ 128 ≤ n.val ∧ n.val < 192 := by decide +kernel
  have hb := hall ⟨b.toNat, b.toNat_lt⟩
  rw [Continues, ← UInt8.toNat_inj, UInt8.toNat_and]
  exact hb

theorem announced_eq (b : UInt8) : announced b =
    if b.toNat < 192 then 0 else if b.toNat < 224 then 2 else if b.toNat < 240 then 3 else 4 := by
  simp [announced, UInt8.lt_iff_toNat_lt]

/-- The low bits of a byte, below a number. -/
theorem shift_or (x : Nat) {y : Nat} (hy : y < 64) : x <<< 6 ||| y = 64 * x + y := by
  rw [← Nat.shiftLeft_add_eq_or_of_lt hy, Nat.shiftLeft_eq, Nat.mul_comm]

theorem and_63 (n : Nat) : n &&& 63 = n % 64 := Nat.and_two_pow_sub_one_eq_mod n 6

theorem tail_byte (n : Nat) : 128 ||| n % 64 = 128 + n % 64 :=
  shift_or 2 (Nat.mod_lt n (by decide))

/-- The bytes of an encoded character, as numbers.  The first of four may be truncated. -/
def bytesOf (n : Nat) : List Nat :=
  if n < 0x80 then [n]
  else if n < 0x800 then [192 + n / 64, 128 + n % 64]
  else if n < 0x10000 then [224 + n / 4096, 128 + n / 64 % 64, 128 + n % 64]
  else [240 ||| n / 262144, 128 + n / 4096 % 64, 128 + n / 64 % 64, 128 + n % 64]

/-- The mark of a first byte is wider than the byte. -/
theorem mark_two {x : Nat} (hx : x < 64) : UInt8.ofNat (960 ||| x) = UInt8.ofNat (192 + x) := by
  have hor : 15 <<< 6 ||| x = 64 * 15 + x := shift_or 15 hx
  rw [show (960 : Nat) = 15 <<< 6 from rfl, hor, ← UInt8.toNat_inj, UInt8.toNat_ofNat',
    UInt8.toNat_ofNat']
  omega

theorem mark_three {x : Nat} (hx : x < 32) : UInt8.ofNat (480 ||| x) = UInt8.ofNat (224 + x) := by
  have hor : 15 <<< 5 + x = 15 <<< 5 ||| x := Nat.shiftLeft_add_eq_or_of_lt hx 15
  rw [show (480 : Nat) = 15 <<< 5 from rfl, ← hor, ← UInt8.toNat_inj, UInt8.toNat_ofNat',
    UInt8.toNat_ofNat']
  omega

/-! ### The runtime's words -/

theorem encodedLength_eq (c : UInt32) : encodedLength c =
    if c.toNat < 0x80 then 1 else if c.toNat < 0x800 then 2
    else if c.toNat < 0x10000 then 3 else 4 := by
  simp [encodedLength, UInt32.lt_iff_toNat_lt]

theorem tail_u32 (c : UInt32) :
    0x80 ||| (c &&& 0x3f).toUInt8 = UInt8.ofNat (128 + c.toNat % 64) := by
  have hlt : c.toNat % 64 < 64 := Nat.mod_lt _ (by decide)
  rw [← UInt8.toNat_inj]
  simp [and_63, tail_byte, Nat.mod_eq_of_lt (show c.toNat % 64 < 256 by omega)]
  omega

theorem shift_u32 (c : UInt32) : (c >>> 6).toNat = c.toNat / 64 := by
  simp [Nat.shiftRight_eq_div_pow]

theorem lead_u32 (mark c : UInt32) :
    (mark ||| c).toUInt8 = UInt8.ofNat (mark.toNat ||| c.toNat) := by
  rw [← UInt8.toNat_inj]
  simp

/-- `encode_native_char` writes these bytes. -/
theorem encoded_eq (c : UInt32) : encoded c = (bytesOf c.toNat).map UInt8.ofNat := by
  have hlen := encodedLength_eq c
  have hshift := shift_u32 c
  have hshift₂ := shift_u32 (c >>> 6)
  have hshift₃ := shift_u32 (c >>> 6 >>> 6)
  rw [hshift] at hshift₂
  rw [hshift₂] at hshift₃
  rcases Nat.lt_or_ge c.toNat 0x80 with h1 | h1
  · rw [if_pos h1] at hlen
    simp [encoded, encodeNativeChar, hlen, encodeTail, bytesOf, h1]
  rcases Nat.lt_or_ge c.toNat 0x800 with h2 | h2
  · rw [if_neg (Nat.not_lt.mpr h1), if_pos h2] at hlen
    have hmark : ((960 : UInt32) ||| c >>> 6).toUInt8 = UInt8.ofNat (192 + c.toNat / 64) := by
      rw [lead_u32, hshift]
      exact mark_two (by omega)
    have hbytes : bytesOf c.toNat = [192 + c.toNat / 64, 128 + c.toNat % 64] := by
      rw [bytesOf, if_neg (Nat.not_lt.mpr h1), if_pos h2]
    rw [hbytes, encoded, encodeNativeChar, hlen]
    show [((960 : UInt32) ||| c >>> 6).toUInt8, (0x80 : UInt8) ||| (c &&& 0x3f).toUInt8] = _
    rw [hmark, tail_u32]
    rfl
  rcases Nat.lt_or_ge c.toNat 0x10000 with h3 | h3
  · rw [if_neg (Nat.not_lt.mpr h1), if_neg (Nat.not_lt.mpr h2), if_pos h3] at hlen
    have hmark : ((480 : UInt32) ||| c >>> 6 >>> 6).toUInt8
        = UInt8.ofNat (224 + c.toNat / 4096) := by
      rw [lead_u32, hshift₂, Nat.div_div_eq_div_mul]
      exact mark_three (by omega)
    have hbytes : bytesOf c.toNat
        = [224 + c.toNat / 4096, 128 + c.toNat / 64 % 64, 128 + c.toNat % 64] := by
      rw [bytesOf, if_neg (Nat.not_lt.mpr h1), if_neg (Nat.not_lt.mpr h2), if_pos h3]
    rw [hbytes, encoded, encodeNativeChar, hlen]
    show [((480 : UInt32) ||| c >>> 6 >>> 6).toUInt8, (0x80 : UInt8) ||| (c >>> 6 &&& 0x3f).toUInt8,
      (0x80 : UInt8) ||| (c &&& 0x3f).toUInt8] = _
    rw [hmark, tail_u32, tail_u32, hshift]
    rfl
  · rw [if_neg (Nat.not_lt.mpr h1), if_neg (Nat.not_lt.mpr h2), if_neg (Nat.not_lt.mpr h3)] at hlen
    have hmark : ((240 : UInt32) ||| c >>> 6 >>> 6 >>> 6).toUInt8
        = UInt8.ofNat (240 ||| c.toNat / 262144) := by
      rw [lead_u32, hshift₃, Nat.div_div_eq_div_mul, Nat.div_div_eq_div_mul]
      rfl
    have hbytes : bytesOf c.toNat = [240 ||| c.toNat / 262144, 128 + c.toNat / 4096 % 64,
        128 + c.toNat / 64 % 64, 128 + c.toNat % 64] := by
      rw [bytesOf, if_neg (Nat.not_lt.mpr h1), if_neg (Nat.not_lt.mpr h2),
        if_neg (Nat.not_lt.mpr h3)]
    rw [hbytes, encoded, encodeNativeChar, hlen]
    show [((240 : UInt32) ||| c >>> 6 >>> 6 >>> 6).toUInt8,
      (0x80 : UInt8) ||| (c >>> 6 >>> 6 &&& 0x3f).toUInt8,
      (0x80 : UInt8) ||| (c >>> 6 &&& 0x3f).toUInt8, (0x80 : UInt8) ||| (c &&& 0x3f).toUInt8] = _
    rw [hmark, tail_u32, tail_u32, tail_u32, hshift₂, hshift, Nat.div_div_eq_div_mul]
    rfl

/-! ### The generated program's words -/

theorem count_u64 (c : UInt32) :
    (if c.toUInt64 < 0x80 then 1 else if c.toUInt64 < 0x800 then 2
      else if c.toUInt64 < 0x10000 then 3 else 4) = encodedLength c := by
  simp [encodedLength_eq, UInt64.lt_iff_toNat_lt]

theorem tail_u64 (c : UInt64) :
    ((0x80 : UInt64) ||| (c &&& 63)).toUInt8 = UInt8.ofNat (128 + c.toNat % 64) := by
  have hlt : c.toNat % 64 < 64 := Nat.mod_lt _ (by decide)
  rw [← UInt8.toNat_inj]
  simp [and_63, tail_byte]
  omega

theorem shift_u64 (c : UInt64) : (c >>> 6).toNat = c.toNat / 64 := by
  simp [Nat.shiftRight_eq_div_pow]

theorem lead_u64 (mark c : UInt64) :
    (mark ||| c).toUInt8 = UInt8.ofNat (mark.toNat ||| c.toNat) := by
  rw [← UInt8.toNat_inj]
  simp

/-- `io_utf8` writes the bytes of `encode_native_char` over the start of its buffer. -/
theorem ioUtf8_eq (c : UInt32) (buffer : List UInt8) (hroom : 4 ≤ buffer.length) :
    ioUtf8 buffer c.toUInt64
      = (encoded c ++ buffer.drop (encodeNativeChar c).2, (encodeNativeChar c).2) := by
  obtain ⟨b₀, b₁, b₂, b₃, rest, rfl⟩ :
      ∃ b₀ b₁ b₂ b₃ rest, buffer = b₀ :: b₁ :: b₂ :: b₃ :: rest := by
    rcases buffer with _ | ⟨b₀, _ | ⟨b₁, _ | ⟨b₂, _ | ⟨b₃, rest⟩⟩⟩⟩ <;>
      first | exact ⟨_, _, _, _, _, rfl⟩ | (simp at hroom)
  have hlen := encodedLength_eq c
  have hcount := count_u64 c
  have hwide : c.toUInt64.toNat = c.toNat := by simp
  have hshift := shift_u64 c.toUInt64
  have hshift₂ := shift_u64 (c.toUInt64 >>> 6)
  have hshift₃ := shift_u64 (c.toUInt64 >>> 6 >>> 6)
  rw [hwide] at hshift
  rw [hshift] at hshift₂
  rw [hshift₂] at hshift₃
  have hsize : (encodeNativeChar c).2 = encodedLength c := rfl
  rw [encoded_eq, hsize, ioUtf8, hcount]
  rcases Nat.lt_or_ge c.toNat 0x80 with h1 | h1
  · rw [if_pos h1] at hlen
    rw [hlen]
    simp [ioUtf8Tail, bytesOf, h1]
  rcases Nat.lt_or_ge c.toNat 0x800 with h2 | h2
  · rw [if_neg (Nat.not_lt.mpr h1), if_pos h2] at hlen
    have hmark : ((960 : UInt64) ||| c.toUInt64 >>> 6).toUInt8
        = UInt8.ofNat (192 + c.toNat / 64) := by
      rw [lead_u64, hshift]
      exact mark_two (by omega)
    have hbytes : bytesOf c.toNat = [192 + c.toNat / 64, 128 + c.toNat % 64] := by
      rw [bytesOf, if_neg (Nat.not_lt.mpr h1), if_pos h2]
    rw [hbytes, hlen]
    show (((960 : UInt64) ||| c.toUInt64 >>> 6).toUInt8
      :: ((0x80 : UInt64) ||| (c.toUInt64 &&& 63)).toUInt8 :: b₂ :: b₃ :: rest, 2) = _
    rw [hmark, tail_u64, hwide]
    rfl
  rcases Nat.lt_or_ge c.toNat 0x10000 with h3 | h3
  · rw [if_neg (Nat.not_lt.mpr h1), if_neg (Nat.not_lt.mpr h2), if_pos h3] at hlen
    have hmark : ((480 : UInt64) ||| c.toUInt64 >>> 6 >>> 6).toUInt8
        = UInt8.ofNat (224 + c.toNat / 4096) := by
      rw [lead_u64, hshift₂, Nat.div_div_eq_div_mul]
      exact mark_three (by omega)
    have hbytes : bytesOf c.toNat
        = [224 + c.toNat / 4096, 128 + c.toNat / 64 % 64, 128 + c.toNat % 64] := by
      rw [bytesOf, if_neg (Nat.not_lt.mpr h1), if_neg (Nat.not_lt.mpr h2), if_pos h3]
    rw [hbytes, hlen]
    show (((480 : UInt64) ||| c.toUInt64 >>> 6 >>> 6).toUInt8
      :: ((0x80 : UInt64) ||| (c.toUInt64 >>> 6 &&& 63)).toUInt8
      :: ((0x80 : UInt64) ||| (c.toUInt64 &&& 63)).toUInt8 :: b₃ :: rest, 3) = _
    rw [hmark, tail_u64, tail_u64, hshift, hwide]
    rfl
  · rw [if_neg (Nat.not_lt.mpr h1), if_neg (Nat.not_lt.mpr h2), if_neg (Nat.not_lt.mpr h3)] at hlen
    have hmark : ((240 : UInt64) ||| c.toUInt64 >>> 6 >>> 6 >>> 6).toUInt8
        = UInt8.ofNat (240 ||| c.toNat / 262144) := by
      rw [lead_u64, hshift₃, Nat.div_div_eq_div_mul, Nat.div_div_eq_div_mul]
      rfl
    have hbytes : bytesOf c.toNat = [240 ||| c.toNat / 262144, 128 + c.toNat / 4096 % 64,
        128 + c.toNat / 64 % 64, 128 + c.toNat % 64] := by
      rw [bytesOf, if_neg (Nat.not_lt.mpr h1), if_neg (Nat.not_lt.mpr h2),
        if_neg (Nat.not_lt.mpr h3)]
    rw [hbytes, hlen]
    show (((240 : UInt64) ||| c.toUInt64 >>> 6 >>> 6 >>> 6).toUInt8
      :: ((0x80 : UInt64) ||| (c.toUInt64 >>> 6 >>> 6 &&& 63)).toUInt8
      :: ((0x80 : UInt64) ||| (c.toUInt64 >>> 6 &&& 63)).toUInt8
      :: ((0x80 : UInt64) ||| (c.toUInt64 &&& 63)).toUInt8 :: rest, 4) = _
    rw [hmark, tail_u64, tail_u64, tail_u64, hshift₂, hshift, hwide, Nat.div_div_eq_div_mul]
    rfl

/-! ## 4. Chunks

One turn of the decoder looks at the end of what remains: a byte `first` with the continuation
bytes `conts` behind it, as many as there are but at most three, and never all of the input. -/

/-- What a turn sees behind the bytes `pre`. -/
structure Tail (pre : List UInt8) (first : UInt8) (conts : List UInt8) : Prop where
  continues : ∀ b ∈ conts, Continues b
  short : conts.length ≤ 3
  stops : conts.length = 3 ∨ pre = [] ∨ ¬ Continues first

/-- The split of bytes into the chunks of the decoder, from the end. -/
inductive Chunks : List UInt8 → List (List UInt8) → Prop
  | nil : Chunks [] []
  | whole {pre : List UInt8} {first : UInt8} {conts : List UInt8} {chunks : List (List UInt8)} :
      Tail pre first conts → announced first = conts.length + 1 → Chunks pre chunks →
      Chunks (pre ++ first :: conts) (chunks ++ [first :: conts])
  | single {pre : List UInt8} {first : UInt8} {conts front : List UInt8} {last : UInt8}
      {chunks : List (List UInt8)} :
      Tail pre first conts → announced first ≠ conts.length + 1 →
      pre ++ first :: conts = front ++ [last] → Chunks front chunks →
      Chunks (front ++ [last]) (chunks ++ [[last]])

/-- The tail of bytes that are not empty, up to a number of continuation bytes. -/
theorem exists_tail_le (bytes : List UInt8) (hne : bytes ≠ []) (n : Nat) :
    ∃ pre first conts, bytes = pre ++ first :: conts ∧ (∀ b ∈ conts, Continues b) ∧
      conts.length ≤ n ∧ (conts.length = n ∨ pre = [] ∨ ¬ Continues first) := by
  induction n with
  | zero =>
    exact ⟨bytes.dropLast, bytes.getLast hne, [], (List.dropLast_append_getLast hne).symm,
      by simp, Nat.le_refl 0, Or.inl rfl⟩
  | succ n ih =>
    obtain ⟨pre, first, conts, hbytes, hconts, hlen, hstop⟩ := ih
    by_cases hmore : conts.length = n ∧ pre ≠ [] ∧ Continues first
    · obtain ⟨hn, hpre, hfirst⟩ := hmore
      refine ⟨pre.dropLast, pre.getLast hpre, first :: conts, ?_, ?_, ?_, ?_⟩
      · rw [hbytes, List.append_cons pre.dropLast, List.dropLast_append_getLast]
      · simpa [hfirst] using hconts
      · simp [hn]
      · exact Or.inl (by simp [hn])
    · refine ⟨pre, first, conts, hbytes, hconts, by omega, Or.inr ?_⟩
      by_contra hcon
      push Not at hcon
      rcases hstop with hn | hnil | hnot
      · exact hmore ⟨hn, hcon⟩
      · exact hcon.1 hnil
      · exact hnot hcon.2

/-- **Some bytes end with a first byte and what continues it.** -/
theorem exists_tail (bytes : List UInt8) (hne : bytes ≠ []) :
    ∃ pre first conts, bytes = pre ++ first :: conts ∧ Tail pre first conts := by
  obtain ⟨pre, first, conts, hbytes, hconts, hlen, hstop⟩ := exists_tail_le bytes hne 3
  exact ⟨pre, first, conts, hbytes, hconts, hlen, hstop⟩

/-- Every byte string falls into chunks. -/
theorem exists_chunks (bytes : List UInt8) : ∃ chunks, Chunks bytes chunks := by
  induction hn : bytes.length using Nat.strongRecOn generalizing bytes with
  | ind n ih =>
    rcases List.eq_nil_or_concat' bytes with rfl | ⟨front, last, hlast⟩
    · exact ⟨[], Chunks.nil⟩
    have hne : bytes ≠ [] := by simp [hlast]
    obtain ⟨pre, first, conts, hbytes, htail⟩ := exists_tail bytes hne
    by_cases hann : announced first = conts.length + 1
    · have hshorter : pre.length < n := by simp [← hn, hbytes]
      obtain ⟨chunks, hchunks⟩ := ih pre.length hshorter pre rfl
      exact ⟨_, hbytes ▸ Chunks.whole htail hann hchunks⟩
    · have hshorter : front.length < n := by simp [← hn, hlast]
      obtain ⟨chunks, hchunks⟩ := ih front.length hshorter front rfl
      exact ⟨_, hlast ▸ Chunks.single htail hann (hbytes.symm.trans hlast) hchunks⟩

/-- The chunks are the bytes, each once and in order. -/
theorem Chunks.flatten {bytes : List UInt8} {chunks : List (List UInt8)} (h : Chunks bytes chunks) :
    chunks.flatten = bytes := by
  induction h with
  | nil => rfl
  | whole htail hann hchunks ih => simp [ih]
  | single htail hann hlast hchunks ih => simp [ih]

theorem Chunks.ne_nil {bytes : List UInt8} {chunks : List (List UInt8)} (h : Chunks bytes chunks) :
    ∀ chunk ∈ chunks, chunk ≠ [] := by
  induction h with
  | nil => simp
  | whole htail hann hchunks ih =>
    intro chunk hmem
    rcases List.mem_append.mp hmem with hmem | hmem
    · exact ih chunk hmem
    · simp [List.mem_singleton.mp hmem]
  | single htail hann hlast hchunks ih =>
    intro chunk hmem
    rcases List.mem_append.mp hmem with hmem | hmem
    · exact ih chunk hmem
    · simp [List.mem_singleton.mp hmem]

/-! ## 5. One turn -/

theorem byteAt_middle (pre : List UInt8) (b : UInt8) (rest : List UInt8) {i : Nat}
    (hi : i = pre.length) : byteAt (pre ++ b :: rest) i = .ok b := by
  simp [byteAt, hi]

/-- Counting back over the continuation bytes: `seen` are counted, `unseen` are left. -/
theorem continuationCount_tail {pre : List UInt8} {first : UInt8} {conts : List UInt8}
    (htail : Tail pre first conts) (rest : List UInt8) (left : Nat) (unseen seen : List UInt8)
    (hconts : conts = unseen ++ seen) (hleft : seen.length + left = 3) :
    continuationCount (pre ++ first :: conts ++ rest) (pre.length + 1 + conts.length) left
      seen.length = .ok conts.length := by
  induction left generalizing unseen seen with
  | zero =>
    have hshort := htail.short
    have hlen : conts.length = seen.length := by
      rw [hconts, List.length_append] at hshort ⊢
      omega
    rw [continuationCount, hlen]
    rfl
  | succ left ih =>
    rcases List.eq_nil_or_concat' unseen with rfl | ⟨unseen', c, rfl⟩
    · rw [List.nil_append] at hconts
      subst hconts
      rw [continuationCount]
      split
      · rename_i hlt
        have hfirst : ¬ Continues first := by
          rcases htail.stops with h3 | rfl | hnot
          · omega
          · simp at hlt
            omega
          · exact hnot
        have hbyte : byteAt (pre ++ first :: conts ++ rest) (pre.length + 1 + conts.length - 1
            - conts.length) = .ok first := by
          rw [List.append_assoc]
          exact byteAt_middle pre first (conts ++ rest) (by omega)
        rw [hbyte]
        exact if_neg hfirst
      · rfl
    · have hc : Continues c := htail.continues c (by simp [hconts])
      have hlen : conts.length = unseen'.length + 1 + seen.length := by
        simp [hconts]
        omega
      have hbyte : byteAt (pre ++ first :: conts ++ rest) (pre.length + 1 + conts.length - 1
          - seen.length) = .ok c := by
        have hsplit : pre ++ first :: conts ++ rest
            = (pre ++ first :: unseen') ++ c :: (seen ++ rest) := by simp [hconts]
        rw [hsplit]
        exact byteAt_middle _ c _ (by simp [hlen]; omega)
      rw [continuationCount, if_pos (by omega), hbyte]
      show (if c &&& 0xc0 = 0x80 then _ else _) = _
      refine (if_pos hc).trans ?_
      exact ih unseen' (c :: seen) (by simp [hconts]) (by simp; omega)

/-- The character of a chunk: a single byte is itself, a longer chunk has seven bits less its
length in the first byte and six in each of the others. -/
def valueOf : List UInt8 → Nat
  | [] => 0
  | [b] => b.toNat
  | first :: conts =>
    conts.foldl (fun value b => 64 * value + b.toNat % 64) (first.toNat % 2 ^ (6 - conts.length))

theorem codepointOf_fold (start : Nat) (conts pre rest : List UInt8) (k : Nat) (v : UInt32)
    (hk : start + k = pre.length) :
    codepointOf (pre ++ conts ++ rest) start (List.range' k conts.length) v
      = .ok (conts.foldl (fun v b => (v <<< 6) ||| (b &&& 0x3f).toUInt32) v) := by
  induction conts generalizing pre k v with
  | nil => rfl
  | cons c conts ih =>
    have hbyte : byteAt (pre ++ c :: conts ++ rest) (start + k) = .ok c := by
      rw [List.append_assoc]
      exact byteAt_middle pre c (conts ++ rest) hk
    have hnext := ih (pre ++ [c]) (k + 1) ((v <<< 6) ||| (c &&& 0x3f).toUInt32)
      (by simp [← hk]; omega)
    rw [List.length_cons, List.range'_succ, codepointOf, hbyte]
    show codepointOf _ start _ ((v <<< 6) ||| (c &&& 0x3f).toUInt32) = _
    simpa using hnext

/-- The text builder goes through them alike. -/
theorem ioCharacter_fold (start : Nat) (conts pre rest : List UInt8) (k : Nat) (v : UInt64)
    (hk : start + k = pre.length) :
    ioCharacter (pre ++ conts ++ rest) start (List.range' k conts.length) v
      = .ok (conts.foldl (fun v b => (v <<< 6) ||| (b &&& 63).toUInt64) v) := by
  induction conts generalizing pre k v with
  | nil => rfl
  | cons c conts ih =>
    have hbyte : byteAt (pre ++ c :: conts ++ rest) (start + k) = .ok c := by
      rw [List.append_assoc]
      exact byteAt_middle pre c (conts ++ rest) hk
    have hnext := ih (pre ++ [c]) (k + 1) ((v <<< 6) ||| (c &&& 63).toUInt64)
      (by simp [← hk]; omega)
    rw [List.length_cons, List.range'_succ, ioCharacter, hbyte]
    show ioCharacter _ start _ ((v <<< 6) ||| (c &&& 63).toUInt64) = _
    simpa using hnext

/-- A character being read has room for the bytes to come. -/
theorem room_next {v m n : Nat} (b : Nat) (hroom : (v + 1) * 64 ^ (n + 1) ≤ m) :
    64 * v < m ∧ (64 * v + b % 64 + 1) * 64 ^ n ≤ m := by
  have hb : b % 64 < 64 := Nat.mod_lt b (by decide)
  have hone : 1 ≤ 64 ^ n := Nat.one_le_pow n 64 (by decide)
  have hbig : (64 * v + b % 64 + 1) * 64 ^ n ≤ (64 * (v + 1)) * 64 ^ n :=
    Nat.mul_le_mul_right _ (by omega)
  have hsame : (64 * (v + 1)) * 64 ^ n = (v + 1) * 64 ^ (n + 1) := by
    rw [Nat.pow_succ]
    ring
  have hfirst : 64 * v + b % 64 + 1 ≤ (64 * v + b % 64 + 1) * 64 ^ n :=
    Nat.le_mul_of_pos_right _ hone
  omega

/-- A character of a few bytes fits a word. -/
theorem fold_u32 (conts : List UInt8) (v : UInt32)
    (hroom : (v.toNat + 1) * 64 ^ conts.length ≤ 2 ^ 32) :
    (conts.foldl (fun (v : UInt32) b => (v <<< 6) ||| (b &&& 0x3f).toUInt32) v).toNat
      = conts.foldl (fun value b => 64 * value + b.toNat % 64) v.toNat := by
  induction conts generalizing v with
  | nil => rfl
  | cons c conts ih =>
    obtain ⟨hfits, hnext⟩ := room_next c.toNat hroom
    have hmod : c.toNat % 64 < 64 := Nat.mod_lt _ (by decide)
    have hstep : ((v <<< 6) ||| (c &&& 0x3f).toUInt32).toNat = 64 * v.toNat + c.toNat % 64 := by
      have hshift : v.toNat <<< 6 = 64 * v.toNat := by rw [Nat.shiftLeft_eq, Nat.mul_comm]
      have hor := shift_or v.toNat hmod
      have hmax : 64 * v.toNat % 4294967296 = 64 * v.toNat := Nat.mod_eq_of_lt hfits
      rw [hshift] at hor
      simpa [and_63, hshift, hmax] using hor
    rw [List.foldl_cons, List.foldl_cons, ← hstep]
    exact ih _ (by rw [hstep]; exact hnext)

theorem fold_u64 (conts : List UInt8) (v : UInt64)
    (hroom : (v.toNat + 1) * 64 ^ conts.length ≤ 2 ^ 64) :
    (conts.foldl (fun (v : UInt64) b => (v <<< 6) ||| (b &&& 63).toUInt64) v).toNat
      = conts.foldl (fun value b => 64 * value + b.toNat % 64) v.toNat := by
  induction conts generalizing v with
  | nil => rfl
  | cons c conts ih =>
    obtain ⟨hfits, hnext⟩ := room_next c.toNat hroom
    have hmod : c.toNat % 64 < 64 := Nat.mod_lt _ (by decide)
    have hstep : ((v <<< 6) ||| (c &&& 63).toUInt64).toNat = 64 * v.toNat + c.toNat % 64 := by
      have hshift : v.toNat <<< 6 = 64 * v.toNat := by rw [Nat.shiftLeft_eq, Nat.mul_comm]
      have hor := shift_or v.toNat hmod
      have hmax : 64 * v.toNat % 18446744073709551616 = 64 * v.toNat := Nat.mod_eq_of_lt hfits
      rw [hshift] at hor
      simpa [and_63, hshift, hmax] using hor
    rw [List.foldl_cons, List.foldl_cons, ← hstep]
    exact ih _ (by rw [hstep]; exact hnext)

/-- A chunk of more than one byte has two, three or four. -/
theorem announced_cases {first : UInt8} {n : Nat} (hann : announced first = n + 1) :
    (n = 1 ∨ n = 2 ∨ n = 3) := by
  rw [announced_eq] at hann
  split at hann
  · omega
  split at hann
  · omega
  split at hann <;> omega

/-- The bits of a first byte behind its mark. -/
theorem mask_u32 (first : UInt8) {n : Nat} (hn : n = 1 ∨ n = 2 ∨ n = 3) :
    (first &&& (0x7f >>> (n + 1).toUInt8)).toUInt32.toNat = first.toNat % 2 ^ (6 - n) := by
  rcases hn with rfl | rfl | rfl
  · simpa using Nat.and_two_pow_sub_one_eq_mod first.toNat 5
  · simpa using Nat.and_two_pow_sub_one_eq_mod first.toNat 4
  · simpa using Nat.and_two_pow_sub_one_eq_mod first.toNat 3

theorem mask_u64 (first : UInt8) {n : Nat} (hn : n = 1 ∨ n = 2 ∨ n = 3) :
    (first.toUInt64 &&& (0x7f >>> (n + 1).toUInt64)).toNat = first.toNat % 2 ^ (6 - n) := by
  rcases hn with rfl | rfl | rfl
  · simpa using Nat.and_two_pow_sub_one_eq_mod first.toNat 5
  · simpa using Nat.and_two_pow_sub_one_eq_mod first.toNat 4
  · simpa using Nat.and_two_pow_sub_one_eq_mod first.toNat 3

/-- A first byte and its continuation bytes fit in twenty-one bits. -/
theorem room_first (first : UInt8) {n : Nat} (hn : n = 1 ∨ n = 2 ∨ n = 3) :
    (first.toNat % 2 ^ (6 - n) + 1) * 64 ^ n ≤ 2 ^ 32 := by
  have hlt : first.toNat % 2 ^ (6 - n) < 2 ^ (6 - n) := Nat.mod_lt _ (Nat.two_pow_pos _)
  rcases hn with rfl | rfl | rfl
  · have h := Nat.mul_le_mul_right (64 ^ 1) hlt
    omega
  · have h := Nat.mul_le_mul_right (64 ^ 2) hlt
    omega
  · have h := Nat.mul_le_mul_right (64 ^ 3) hlt
    omega

theorem valueOf_whole (first : UInt8) (conts : List UInt8) (hn : conts ≠ []) :
    valueOf (first :: conts) = conts.foldl (fun value b => 64 * value + b.toNat % 64)
      (first.toNat % 2 ^ (6 - conts.length)) := by
  cases conts with
  | nil => exact absurd rfl hn
  | cons c conts => rfl

/-- The runtime reads the character of a whole chunk. -/
theorem codepointOf_whole {pre : List UInt8} {first : UInt8} {conts : List UInt8}
    (hann : announced first = conts.length + 1) (rest : List UInt8) :
    codepointOf (pre ++ first :: conts ++ rest) pre.length (List.range' 1 conts.length)
      (first &&& (0x7f >>> (conts.length + 1).toUInt8)).toUInt32
      = .ok (UInt32.ofNat (valueOf (first :: conts))) := by
  have hn := announced_cases hann
  have hne : conts ≠ [] := by
    rintro rfl
    simp at hn
  have hmask := mask_u32 first hn
  have hfold := codepointOf_fold pre.length conts (pre ++ [first]) rest 1
    (first &&& (0x7f >>> (conts.length + 1).toUInt8)).toUInt32 (by simp)
  have hvalue := fold_u32 conts (first &&& (0x7f >>> (conts.length + 1).toUInt8)).toUInt32
    (by rw [hmask]; exact room_first first hn)
  rw [hmask, ← valueOf_whole first conts hne] at hvalue
  rw [List.append_cons pre, hfold, ← hvalue, UInt32.ofNat_toNat]

/-- The generated program reads the same character. -/
theorem ioCharacter_whole {pre : List UInt8} {first : UInt8} {conts : List UInt8}
    (hann : announced first = conts.length + 1) (rest : List UInt8) :
    ioCharacter (pre ++ first :: conts ++ rest) pre.length (List.range' 1 conts.length)
      (first.toUInt64 &&& (0x7f >>> (conts.length + 1).toUInt64))
      = .ok (UInt64.ofNat (valueOf (first :: conts))) := by
  have hn := announced_cases hann
  have hne : conts ≠ [] := by
    rintro rfl
    simp at hn
  have hmask := mask_u64 first hn
  have hfold := ioCharacter_fold pre.length conts (pre ++ [first]) rest 1
    (first.toUInt64 &&& (0x7f >>> (conts.length + 1).toUInt64)) (by simp)
  have hvalue := fold_u64 conts (first.toUInt64 &&& (0x7f >>> (conts.length + 1).toUInt64))
    (by rw [hmask]; exact (room_first first hn).trans (by decide))
  rw [hmask, ← valueOf_whole first conts hne] at hvalue
  rw [List.append_cons pre, hfold, ← hvalue, UInt64.ofNat_toNat]

theorem foldl_lt (conts : List UInt8) (v : Nat) :
    conts.foldl (fun value b => 64 * value + b.toNat % 64) v < (v + 1) * 64 ^ conts.length := by
  induction conts generalizing v with
  | nil => simp
  | cons c conts ih => exact (ih _).trans_le (room_next c.toNat (Nat.le_refl _)).2

theorem exists_byteAt {bytes : List UInt8} {i : Nat} (hi : i < bytes.length) :
    ∃ b, byteAt bytes i = .ok b :=
  ⟨bytes[i], by simp [byteAt, hi]⟩

/-- `decodeLast` at a tail: what it finds there, before it decides. -/
theorem decodeLast_tail {pre : List UInt8} {first : UInt8} {conts : List UInt8} {last : UInt8}
    (htail : Tail pre first conts) (rest : List UInt8)
    (hlast : byteAt (pre ++ first :: conts ++ rest) (pre.length + conts.length) = .ok last) :
    decodeLast (pre ++ first :: conts ++ rest) (pre.length + 1 + conts.length) =
      if announced first = conts.length + 1 then
        .ok (UInt32.ofNat (valueOf (first :: conts)), conts.length + 1)
      else .ok (last.toUInt32, 1) := by
  have hcount := continuationCount_tail htail rest 3 conts [] (by simp) rfl
  have hfirst : byteAt (pre ++ first :: conts ++ rest) (pre.length + 1 + conts.length - 1
      - conts.length) = .ok first := by
    rw [List.append_assoc]
    exact byteAt_middle pre first (conts ++ rest) (by omega)
  have hend : pre.length + 1 + conts.length - 1 = pre.length + conts.length := by omega
  rw [List.length_nil] at hcount
  rw [← hend] at hlast
  simp only [decodeLast, hcount, hfirst, hlast, bind, Except.bind, pure, Except.pure]
  split
  · rename_i hann
    have hstart : pre.length + 1 + conts.length - (conts.length + 1) = pre.length := by omega
    have hread := @codepointOf_whole pre first conts hann rest
    rw [hann, hstart, Nat.add_sub_cancel, hread]
  · rfl

/-- The count back in the generated program is that of the runtime. -/
theorem ioBack_eq (text : List UInt8) (length left back : Nat) :
    ioBack text length left back = continuationCount text length left back := by
  induction left generalizing back with
  | zero => rfl
  | succ left ih =>
    rw [ioBack, continuationCount]
    simp only [ih]

/-- The last character is found from its end. -/
theorem ioLast_tail {pre : List UInt8} {first : UInt8} {conts : List UInt8} {last : UInt8}
    (htail : Tail pre first conts) (rest : List UInt8)
    (hlast : byteAt (pre ++ first :: conts ++ rest) (pre.length + conts.length) = .ok last) :
    ioLast (pre ++ first :: conts ++ rest) (pre.length + 1 + conts.length) =
      if announced first = conts.length + 1 then
        .ok (UInt64.ofNat (valueOf (first :: conts)), conts.length + 1)
      else .ok (last.toUInt64, 1) := by
  have hcount := continuationCount_tail htail rest 3 conts [] (by simp) rfl
  have hfirst : byteAt (pre ++ first :: conts ++ rest) (pre.length + 1 + conts.length - 1
      - conts.length) = .ok first := by
    rw [List.append_assoc]
    exact byteAt_middle pre first (conts ++ rest) (by omega)
  have hend : pre.length + 1 + conts.length - 1 = pre.length + conts.length := by omega
  rw [List.length_nil, ← ioBack_eq] at hcount
  rw [← hend] at hlast
  have hsame : (if first < 0xc0 then 0 else if first < 0xe0 then 2 else if first < 0xf0 then 3
      else 4) = announced first := rfl
  simp only [ioLast, hcount, hfirst, hlast, bind, Except.bind, pure, Except.pure, hsame]
  split
  · rename_i hann
    have hstart : pre.length + 1 + conts.length - (conts.length + 1) = pre.length := by omega
    have hread := @ioCharacter_whole pre first conts hann rest
    rw [hann, hstart, Nat.add_sub_cancel, hread]
  · rfl

/-- Both programs read a chunk at the end of what remains as one character. -/
structure Reads (front chunk : List UInt8) : Prop where
  nonempty : chunk ≠ []
  runtime : ∀ rest, decodeLast (front ++ chunk ++ rest) (front.length + chunk.length)
    = .ok (UInt32.ofNat (valueOf chunk), chunk.length)
  generated : ∀ rest, ioLast (front ++ chunk ++ rest) (front.length + chunk.length)
    = .ok (UInt64.ofNat (valueOf chunk), chunk.length)

theorem reads_whole {pre : List UInt8} {first : UInt8} {conts : List UInt8}
    (htail : Tail pre first conts) (hann : announced first = conts.length + 1) :
    Reads pre (first :: conts) := by
  have hsize : pre.length + (first :: conts).length = pre.length + 1 + conts.length := by
    simp
    omega
  have hlast (rest : List UInt8) : ∃ last, byteAt (pre ++ first :: conts ++ rest)
      (pre.length + conts.length) = .ok last :=
    exists_byteAt (by simp only [List.length_append, List.length_cons]; omega)
  refine ⟨List.cons_ne_nil first conts, fun rest => ?_, fun rest => ?_⟩
  · obtain ⟨last, hlast⟩ := hlast rest
    rw [hsize, decodeLast_tail htail rest hlast, if_pos hann, List.length_cons]
  · obtain ⟨last, hlast⟩ := hlast rest
    rw [hsize, ioLast_tail htail rest hlast, if_pos hann, List.length_cons]

/-- Otherwise the last byte stands alone. -/
theorem reads_single {pre : List UInt8} {first : UInt8} {conts front : List UInt8} {last : UInt8}
    (htail : Tail pre first conts) (hann : announced first ≠ conts.length + 1)
    (hsplit : pre ++ first :: conts = front ++ [last]) : Reads front [last] := by
  have hsize : pre.length + conts.length = front.length := by
    have hlen := congrArg List.length hsplit
    simp at hlen
    omega
  have hsize' : front.length + [last].length = pre.length + 1 + conts.length := by
    simp [← hsize, Nat.add_right_comm]
  have hlast (rest : List UInt8) : byteAt (pre ++ first :: conts ++ rest)
      (pre.length + conts.length) = .ok last := by
    rw [hsplit, List.append_assoc]
    exact byteAt_middle front last rest hsize
  refine ⟨List.cons_ne_nil last [], fun rest => ?_, fun rest => ?_⟩
  · rw [hsize', ← hsplit, decodeLast_tail htail rest (hlast rest), if_neg hann]
    simp [valueOf]
  · rw [hsize', ← hsplit, ioLast_tail htail rest (hlast rest), if_neg hann]
    simp [valueOf]

/-! ## 6. The loops -/

/-- Splitting bytes into chunks is reading one chunk after another, from the end. -/
theorem Chunks.reads {bytes : List UInt8} {chunks : List (List UInt8)} (h : Chunks bytes chunks) :
    chunks = [] ∧ bytes = [] ∨ ∃ front chunk init, chunks = init ++ [chunk] ∧
      bytes = front ++ chunk ∧ Chunks front init ∧ Reads front chunk := by
  cases h with
  | nil => exact Or.inl ⟨rfl, rfl⟩
  | whole htail hann hchunks =>
    exact Or.inr ⟨_, _, _, rfl, rfl, hchunks, reads_whole htail hann⟩
  | single htail hann hsplit hchunks =>
    exact Or.inr ⟨_, _, _, rfl, rfl, hchunks, reads_single htail hann hsplit⟩

/-- A character of a chunk is a 32-bit value. -/
theorem Chunks.value_lt {bytes : List UInt8} {chunks : List (List UInt8)}
    (h : Chunks bytes chunks) :
    ∀ chunk ∈ chunks, valueOf chunk < 2 ^ 32 := by
  induction h with
  | nil => simp
  | @whole pre first conts chunks htail hann hchunks ih =>
    intro chunk hmem
    rcases List.mem_append.mp hmem with hmem | hmem
    · exact ih chunk hmem
    · have hn := announced_cases hann
      have hne : conts ≠ [] := by
        rintro rfl
        simp at hn
      rw [List.mem_singleton.mp hmem, valueOf_whole first conts hne]
      exact (foldl_lt conts _).trans_le (room_first first hn)
  | @single pre first conts front last chunks htail hann hsplit hchunks ih =>
    intro chunk hmem
    rcases List.mem_append.mp hmem with hmem | hmem
    · exact ih chunk hmem
    · rw [List.mem_singleton.mp hmem]
      exact last.toNat_lt.trans (by decide)

/-- The decoder of the runtime, over the chunks. -/
theorem decodeLoop_chunks {bytes : List UInt8} {chunks : List (List UInt8)}
    (h : Chunks bytes chunks) (rest : List UInt8) (turns : Nat) (text : List UInt32)
    (hturns : bytes.length ≤ turns) :
    decodeLoop (bytes ++ rest) turns bytes.length text
      = .ok (text ++ chunks.reverse.map (fun chunk => UInt32.ofNat (valueOf chunk))) := by
  induction turns generalizing bytes chunks rest text with
  | zero =>
    rcases h.reads with ⟨rfl, rfl⟩ | ⟨front, chunk, init, rfl, rfl, -, hread⟩
    · simp [decodeLoop, pure, Except.pure]
    · have hpos := List.length_pos_iff.mpr hread.nonempty
      simp at hturns
      simp [hturns.2] at hpos
  | succ turns ih =>
    rcases h.reads with ⟨rfl, rfl⟩ | ⟨front, chunk, init, rfl, rfl, hinit, hread⟩
    · simp [decodeLoop, pure, Except.pure]
    have hpos := List.length_pos_iff.mpr hread.nonempty
    have hturn := hread.runtime rest
    rw [List.length_append] at hturns ⊢
    obtain ⟨n, hn⟩ : ∃ n, front.length + chunk.length = n + 1 :=
      ⟨front.length + chunk.length - 1, by omega⟩
    have hleft : n + 1 - chunk.length = front.length := by omega
    rw [hn] at hturn ⊢
    rw [decodeLoop, hturn]
    show decodeLoop (front ++ chunk ++ rest) turns (n + 1 - chunk.length) _ = _
    rw [hleft, List.append_assoc, ih hinit (chunk ++ rest) _ (by omega)]
    simp

/-- The decoder of the generated program, over the chunks. -/
theorem ioLoop_chunks {bytes : List UInt8} {chunks : List (List UInt8)}
    (h : Chunks bytes chunks) (rest : List UInt8) (turns : Nat) (string : List UInt64)
    (hturns : bytes.length ≤ turns) :
    ioLoop (bytes ++ rest) turns bytes.length string
      = .ok (chunks.map (fun chunk => UInt64.ofNat (valueOf chunk)) ++ string) := by
  induction turns generalizing bytes chunks rest string with
  | zero =>
    rcases h.reads with ⟨rfl, rfl⟩ | ⟨front, chunk, init, rfl, rfl, -, hread⟩
    · simp [ioLoop, pure, Except.pure]
    · have hpos := List.length_pos_iff.mpr hread.nonempty
      simp at hturns
      simp [hturns.2] at hpos
  | succ turns ih =>
    rcases h.reads with ⟨rfl, rfl⟩ | ⟨front, chunk, init, rfl, rfl, hinit, hread⟩
    · simp [ioLoop, pure, Except.pure]
    have hpos := List.length_pos_iff.mpr hread.nonempty
    have hturn := hread.generated rest
    rw [List.length_append] at hturns ⊢
    obtain ⟨n, hn⟩ : ∃ n, front.length + chunk.length = n + 1 :=
      ⟨front.length + chunk.length - 1, by omega⟩
    have hleft : n + 1 - chunk.length = front.length := by omega
    rw [hn] at hturn ⊢
    rw [ioLoop, hturn]
    show ioLoop (front ++ chunk ++ rest) turns (n + 1 - chunk.length) _ = _
    rw [hleft, List.append_assoc, ih hinit (chunk ++ rest) _ (by omega)]
    simp

/-- What `decode_native_text` returns, over the chunks. -/
theorem decodeNativeText_chunks {bytes : List UInt8} {chunks : List (List UInt8)}
    (h : Chunks bytes chunks) {byteLimit : Nat} (hlimit : bytes.length ≤ byteLimit) :
    decodeNativeText bytes byteLimit
      = .ok (chunks.map (fun chunk => UInt32.ofNat (valueOf chunk))) := by
  have hloop := decodeLoop_chunks h [] bytes.length [] (Nat.le_refl _)
  rw [List.append_nil] at hloop
  rw [decodeNativeText, if_neg (Nat.not_lt.mpr hlimit), hloop]
  simp [Except.map]

/-- **A text is built from its chunks**, within the limit of the host. -/
theorem ioStr_chunks {bytes : List UInt8} {chunks : List (List UInt8)}
    (h : Chunks bytes chunks) {maxHostBuffer : Nat} (hlimit : bytes.length ≤ maxHostBuffer) :
    ioStr bytes maxHostBuffer
      = .ok (chunks.map (fun chunk => UInt64.ofNat (valueOf chunk))) := by
  have hloop := ioLoop_chunks h [] bytes.length [] (Nat.le_refl _)
  rw [List.append_nil, List.append_nil] at hloop
  rw [ioStr, if_neg (Nat.not_lt.mpr hlimit), hloop]

/-! ## 7. The chunks of an encoded text -/

/-- A first byte that announces what follows makes a chunk of it, behind anything. -/
theorem chunks_append {front : List UInt8} {chunks : List (List UInt8)} (h : Chunks front chunks)
    {first : UInt8} {conts : List UInt8} (hann : announced first = conts.length + 1)
    (hconts : ∀ b ∈ conts, Continues b) :
    Chunks (front ++ first :: conts) (chunks ++ [first :: conts]) := by
  have hn := announced_cases hann
  have hlead : ¬ Continues first := by
    intro hcont
    rw [announced_eq, if_pos (continues_iff.mp hcont).2] at hann
    omega
  exact Chunks.whole ⟨hconts, by omega, Or.inr (Or.inr hlead)⟩ hann h

theorem toNat_tail (x : Nat) : (UInt8.ofNat (128 + x % 64)).toNat = 128 + x % 64 := by
  rw [UInt8.toNat_ofNat']
  omega

theorem continues_tails (xs : List Nat) :
    ∀ b ∈ xs.map (fun x => UInt8.ofNat (128 + x % 64)), Continues b := by
  intro b hb
  obtain ⟨x, -, rfl⟩ := List.mem_map.mp hb
  rw [continues_iff, toNat_tail]
  omega

theorem toNat_lead {mark x : Nat} (h : mark + x < 256) :
    (UInt8.ofNat (mark + x)).toNat = mark + x := by
  rw [UInt8.toNat_ofNat']
  omega

/-- A truncated first byte of four keeps its mark, and three bits. -/
theorem toNat_lead_four (x : Nat) :
    240 ≤ (UInt8.ofNat (240 ||| x)).toNat ∧ (UInt8.ofNat (240 ||| x)).toNat % 8 = x % 8 := by
  have hbits : (240 ||| x) % 256 = 240 ||| x % 256 := Nat.or_mod_two_pow (n := 8)
  have hlow : (240 ||| x) % 8 = x % 8 := by
    have h : (240 ||| x) % 8 = 240 % 8 ||| x % 8 := Nat.or_mod_two_pow (n := 3)
    simpa using h
  have hmark : 240 ≤ 240 ||| x % 256 := Nat.left_le_or
  rw [UInt8.toNat_ofNat']
  omega

/-- The bytes of one encoded character are a chunk behind anything, and its value. -/
theorem chunks_encoded {front : List UInt8} {chunks : List (List UInt8)} (h : Chunks front chunks)
    (c : UInt32) : Chunks (front ++ encoded c) (chunks ++ [encoded c]) := by
  rw [encoded_eq, bytesOf]
  rcases Nat.lt_or_ge c.toNat 0x80 with h1 | h1
  · have hbyte : (UInt8.ofNat c.toNat).toNat = c.toNat := by
      rw [UInt8.toNat_ofNat']
      omega
    have hann : announced (UInt8.ofNat c.toNat) ≠ ([] : List UInt8).length + 1 := by
      rw [announced_eq, hbyte, if_pos (by omega)]
      simp
    have hcont : ¬ Continues (UInt8.ofNat c.toNat) := by
      rw [continues_iff, hbyte]
      omega
    rw [if_pos h1]
    exact Chunks.single ⟨by simp, by simp, Or.inr (Or.inr hcont)⟩ hann rfl h
  rw [if_neg (Nat.not_lt.mpr h1)]
  split
  · refine chunks_append h ?_ (continues_tails [c.toNat])
    rw [announced_eq, toNat_lead (by omega), if_neg (by omega), if_pos (by omega)]
    rfl
  split
  · refine chunks_append h ?_ (continues_tails [c.toNat / 64, c.toNat])
    rw [announced_eq, toNat_lead (by omega), if_neg (by omega), if_neg (by omega),
      if_pos (by omega)]
    rfl
  · refine chunks_append h ?_ (continues_tails [c.toNat / 4096, c.toNat / 64, c.toNat])
    have hlead := (toNat_lead_four (c.toNat / 262144)).1
    rw [announced_eq, if_neg (by omega), if_neg (by omega), if_neg (by omega)]
    rfl

/-- The character of an encoded character: twenty-one bits are left of four bytes. -/
theorem valueOf_encoded (c : UInt32) : valueOf (encoded c)
    = if c.toNat < 0x10000 then c.toNat else c.toNat % 2 ^ 21 := by
  rw [encoded_eq, bytesOf]
  split
  · rw [if_pos (by omega)]
    simp [valueOf]
    omega
  split
  · rw [if_pos (by omega)]
    simp only [List.map_cons, List.map_nil, valueOf, List.foldl_cons, List.foldl_nil,
      toNat_tail, List.length_cons, List.length_nil]
    rw [toNat_lead (by omega)]
    omega
  split
  · simp only [List.map_cons, List.map_nil, valueOf, List.foldl_cons, List.foldl_nil,
      toNat_tail, List.length_cons, List.length_nil]
    rw [toNat_lead (by omega)]
    omega
  · have hlead := (toNat_lead_four (c.toNat / 262144)).2
    simp only [List.map_cons, List.map_nil, valueOf, List.foldl_cons, List.foldl_nil,
      toNat_tail, List.length_cons, List.length_nil]
    omega

/-- The chunks of an encoded text are its characters. -/
theorem chunks_text (values : List UInt32) :
    Chunks (values.flatMap encoded) (values.map encoded) := by
  induction values using List.reverseRecOn with
  | nil => exact Chunks.nil
  | append_singleton values c ih => simpa using chunks_encoded ih c

theorem char_lt (c : Char) : c.val.toNat < 0x110000 := by
  rcases c.valid with h | ⟨-, h⟩
  · exact h.trans (by decide)
  · exact h

/-- On a Unicode scalar value the encoder writes UTF-8. -/
theorem encoded_char (c : Char) : encoded c.val = String.utf8EncodeChar c := by
  have hvalid := char_lt c
  have hfour : 240 ||| c.val.toNat / 262144 = c.val.toNat / 262144 % 8 + 240 := by
    have h := Nat.shiftLeft_add_eq_or_of_lt (show c.val.toNat / 262144 < 2 ^ 4 by omega) 15
    rw [show (240 : Nat) = 15 <<< 4 from rfl, ← h]
    omega
  have htail (x : Nat) : 128 + x % 64 = x % 64 + 128 := Nat.add_comm _ _
  rw [encoded_eq, bytesOf, String.utf8EncodeChar]
  rcases Nat.lt_or_ge c.val.toNat 0x80 with h1 | h1
  · rw [if_pos h1, if_pos (show c.val.toNat ≤ 127 by omega)]
    rfl
  rw [if_neg (Nat.not_lt.mpr h1), if_neg (show ¬ c.val.toNat ≤ 127 by omega)]
  rcases Nat.lt_or_ge c.val.toNat 0x800 with h2 | h2
  · have hlead : 192 + c.val.toNat / 64 = c.val.toNat / 64 % 32 + 192 := by omega
    rw [if_pos h2, if_pos (show c.val.toNat ≤ 2047 by omega), hlead, htail]
    rfl
  rw [if_neg (Nat.not_lt.mpr h2), if_neg (show ¬ c.val.toNat ≤ 2047 by omega)]
  rcases Nat.lt_or_ge c.val.toNat 0x10000 with h3 | h3
  · have hlead : 224 + c.val.toNat / 4096 = c.val.toNat / 4096 % 16 + 224 := by omega
    rw [if_pos h3, if_pos (show c.val.toNat ≤ 65535 by omega), hlead, htail, htail]
    rfl
  · rw [if_neg (Nat.not_lt.mpr h3), if_neg (show ¬ c.val.toNat ≤ 65535 by omega), hfour, htail,
      htail, htail]
    rfl

/-- A value of twenty-one bits after the round trip; smaller values than four bytes carry are
unchanged. -/
def kept (c : UInt32) : UInt32 := if c < 0x10000 then c else c % 0x200000

theorem kept_eq (c : UInt32) : UInt32.ofNat (valueOf (encoded c)) = kept c := by
  rw [valueOf_encoded, kept, ← UInt32.toNat_inj]
  have hlt : c < 0x10000 ↔ c.toNat < 0x10000 := UInt32.lt_iff_toNat_lt
  by_cases h : c.toNat < 0x10000
  · rw [if_pos h, if_pos (hlt.mpr h), UInt32.ofNat_toNat]
  · rw [if_neg h, if_neg (mt hlt.mp h)]
    simp
    omega

theorem kept_of_lt {c : UInt32} (h : c.toNat < 2 ^ 21) : kept c = c := by
  rw [kept]
  split
  · rfl
  · rw [← UInt32.toNat_inj, UInt32.toNat_mod]
    exact Nat.mod_eq_of_lt h

/-- **Native text.**  Decoding an encoded text gives it back, up to the bits that four bytes do
not carry.  Every byte string is decoded, chunk after chunk, each byte in one chunk, and where it
is UTF-8 its characters come out.  The generated program writes the same bytes and reads the same
characters. -/
theorem native_text_round_trip :
    (∀ (values : List UInt32) (byteLimit : Nat),
      (values.flatMap encoded).length ≤ byteLimit →
      decodeNativeText (values.flatMap encoded) byteLimit = .ok (values.map kept)) ∧
    (∀ c : UInt32, c.toNat < 2 ^ 21 → kept c = c) ∧
    (∀ (bytes : List UInt8) (byteLimit : Nat), bytes.length ≤ byteLimit →
      ∃ chunks : List (List UInt8), chunks.flatten = bytes ∧ (∀ chunk ∈ chunks, chunk ≠ []) ∧
        decodeNativeText bytes byteLimit
          = .ok (chunks.map (fun chunk => UInt32.ofNat (valueOf chunk)))) ∧
    (∀ (text : List Char) (byteLimit : Nat),
      (text.flatMap String.utf8EncodeChar).length ≤ byteLimit →
      decodeNativeText (text.flatMap String.utf8EncodeChar) byteLimit
        = .ok (text.map Char.val)) ∧
    (∀ (c : UInt32) (buffer : List UInt8), 4 ≤ buffer.length →
      ioUtf8 buffer c.toUInt64
        = (encoded c ++ buffer.drop (encodeNativeChar c).2, (encodeNativeChar c).2)) ∧
    (∀ (bytes : List UInt8) (byteLimit maxHostBuffer : Nat), bytes.length ≤ byteLimit →
      bytes.length ≤ maxHostBuffer →
      ioStr bytes maxHostBuffer
        = (decodeNativeText bytes byteLimit).map (List.map UInt32.toUInt64)) := by
  refine ⟨?_, ?_, ?_, ?_, ?_, ?_⟩
  · intro values byteLimit hlimit
    rw [decodeNativeText_chunks (chunks_text values) hlimit, List.map_map]
    exact congrArg Except.ok (List.map_congr_left fun c _ => kept_eq c)
  · intro c hc
    exact kept_of_lt hc
  · intro bytes byteLimit hlimit
    obtain ⟨chunks, hchunks⟩ := exists_chunks bytes
    exact ⟨chunks, hchunks.flatten, hchunks.ne_nil, decodeNativeText_chunks hchunks hlimit⟩
  · intro text byteLimit hlimit
    have hbytes : text.flatMap String.utf8EncodeChar = (text.map Char.val).flatMap encoded := by
      simp [List.flatMap_map, encoded_char]
    rw [hbytes] at hlimit ⊢
    rw [decodeNativeText_chunks (chunks_text _) hlimit, List.map_map, List.map_map]
    refine congrArg Except.ok (List.map_congr_left fun c _ => ?_)
    exact (kept_eq c.val).trans (kept_of_lt ((char_lt c).trans (by decide)))
  · exact ioUtf8_eq
  · intro bytes byteLimit maxHostBuffer hruntime hgenerated
    obtain ⟨chunks, hchunks⟩ := exists_chunks bytes
    rw [ioStr_chunks hchunks hgenerated, decodeNativeText_chunks hchunks hruntime]
    refine congrArg Except.ok ?_
    rw [List.map_map]
    refine List.map_congr_left fun chunk hmem => ?_
    have hlt := hchunks.value_lt chunk hmem
    rw [Function.comp_apply, ← UInt64.toNat_inj, UInt32.toNat_toUInt64,
      UInt32.toNat_ofNat_of_lt' hlt, UInt64.toNat_ofNat_of_lt' (hlt.trans (by decide))]

/-- A surrogate, a character of two bytes and one beyond twenty-one bits. -/
theorem native_text_round_trip_three :
    decodeNativeText ([0xd800, 0xe9, 0x200041].flatMap encoded) 16 = .ok [0xd800, 0xe9, 0x41] :=
  native_text_round_trip.1 [0xd800, 0xe9, 0x200041] 16 (by decide)

end TeamyBend.Runtime.NativeText
