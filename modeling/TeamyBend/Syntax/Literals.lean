/-
# String and character literals

A complete string or character value prints as a literal (`iterative_display` with
`literal_character`, `string_plan` and `write_character`).  The lexer finds the end of a literal
without reading its escapes, and `decode_literal` reads them afterwards.

A code is any `u32`.  Codes that are not characters, and control characters, print as Unicode
escapes; every other code prints as its character or as a backslash and a character.  So a printed
code never ends the literal (`scanQuoted_written`) and is read as itself (`decode_written`), and a
literal of many codes is one token with these codes (`literals_read_back`).
-/
import TeamyBend.Syntax.Lexer
import TeamyBend.Kernel.Term
import Mathlib.Data.Nat.Bitwise

namespace TeamyBend.Syntax

open Kernel Lexer

/-! ## 1. Printing -/

/-- `strip` of `literal_word`, and the loop over annotations of `literal_character`. -/
def stripAnn : Term → Term
  | .Ann inner _ => stripAnn inner
  | value => value

/-- The loop of `literal_word`, for the bits that are left. -/
def literalWordFrom : Nat → UInt32 → Term → Option UInt32
  | 0, value, word =>
    match stripAnn word with
    | .Ctr name [] => if name = "WNil" then some value else none
    | _ => none
  | left + 1, value, word =>
    match stripAnn word with
    | .Ctr name [head, tail] =>
      if name = "WCon" then
        match stripAnn head with
        | .Ctr name [] =>
          if name = "True" then
            literalWordFrom left (value ||| (1 <<< UInt32.ofNat (31 - left))) tail
          else if name = "False" then literalWordFrom left value tail
          else none
        | _ => none
      else none
    | _ => none

/-- `literal_word`. -/
def literalWord (word : Term) : Option UInt32 := literalWordFrom 32 0 word

/-- `literal_character`. -/
def literalCharacter : Term → Option UInt32
  | .Ctr name [number] =>
    if name = "Chr" then
      match stripAnn number with
      | .Ctr name [word] => if name = "U32" then literalWord word else none
      | _ => none
    else none
  | _ => none

/-- `string_plan`, with the variables of its loop. -/
def stringPlanFrom (length lastNonliteral : Nat) : Term → Option (Nat × Bool)
  | .Ctr name [] =>
    if name = "SNil" then some (lastNonliteral, true)
    else if length ≠ 0 then some (length, false) else none
  | .Ctr name [head, tail] =>
    if name = "SCon" then
      stringPlanFrom (length + 1)
        (if (literalCharacter head).isNone then length + 1 else lastNonliteral) tail
    else if length ≠ 0 then some (length, false) else none
  | _ => if length ≠ 0 then some (length, false) else none

/-- `string_plan`. -/
def stringPlan (value : Term) : Option (Nat × Bool) := stringPlanFrom 0 0 value

/-- `nat_spine`, from a count on. -/
def natSpineFrom (count : Nat) : Term → Option (Nat × Term)
  | .Ctr name [tail] =>
    if name = "Succ" then natSpineFrom (count + 1) tail
    else if count ≠ 0 then some (count, .Ctr name [tail]) else none
  | .Ctr name [] =>
    if count ≠ 0 ∨ name = "Zero" then some (count, .Ctr name []) else none
  | value => if count ≠ 0 then some (count, value) else none

/-- `nat_spine`. -/
def natSpine (value : Term) : Option (Nat × Term) := natSpineFrom 0 value

/-- `char::from_u32`. -/
def charFromU32 (value : UInt32) : Option Char :=
  if h : value.isValidChar then some ⟨value, h⟩ else none

/-- `{value:x}`. -/
def lowerHex (value : UInt32) : List Char := Nat.toDigits 16 value.toNat

/-- `write_character`; none where `char::from_u32` would fail. -/
def writeCharacter (value : UInt32) (quote : Char) : Option (List Char) :=
  if value = 10 then some ['\\', 'n']
  else if value = 9 then some ['\\', 't']
  else if value = 13 then some ['\\', 'r']
  else if value = 0 then some ['\\', '0']
  else if value = 92 then some ['\\', '\\']
  else if value = 39 ∧ quote = '\'' then some ['\\', '\'']
  else if value = 34 ∧ quote = '"' then some ['\\', '"']
  else if (1 ≤ value ∧ value ≤ 31) ∨ value = 127 ∨ (0xd800 ≤ value ∧ value ≤ 0xdfff) ∨
      0x110000 ≤ value then
    some ('\\' :: 'u' :: '{' :: (lowerHex value ++ ['}']))
  else (charFromU32 value).map fun ch => [ch]

/-- The loop over the characters of a string whose characters are all literal. -/
def writeTail : Term → Option (List Char)
  | .Ctr name [head, next] =>
    if name = "SNil" then some []
    else do
      let value ← literalCharacter head
      let text ← writeCharacter value '"'
      let more ← writeTail next
      return text ++ more
  | .Ctr name _ => if name = "SNil" then some [] else none
  | _ => some []

/-- What `Display` writes for a constructor that is a complete literal. -/
def displayLiteral (value : Term) : Option (List Char) :=
  match natSpine value, literalCharacter value, stringPlan value with
  | some _, _, _ => none
  | none, some ch, _ => do
    let text ← writeCharacter ch '\''
    return '\'' :: (text ++ ['\''])
  | none, none, some (0, true) => do
    let text ← writeTail value
    return '"' :: (text ++ ['"'])
  | none, none, _ => none

/-! ## 2. Reading -/

/-- `enum LiteralError`. -/
inductive LiteralError where
  | Other (message : String)
  | UnknownEscape (escape : Char) (after : Nat)
  | MalformedUnicode (message : String) (escape : Char) (after : Nat)
  | NoTurnsLeft
  deriving DecidableEq

/-- `is_ascii_hexdigit`. -/
def isAsciiHexdigit (ch : Char) : Bool :=
  isAsciiDigit ch || ('a' ≤ ch && ch ≤ 'f') || ('A' ≤ ch && ch ≤ 'F')

/-- The loop of `supported_unicode_escape`, after `count` digits. -/
def supportedDigits (count : Nat) : List Char → Bool
  | [] => false
  | c :: chars =>
    if c = '}' ∧ 0 < count then true
    else if count < 8 ∧ isAsciiHexdigit c then supportedDigits (count + 1) chars
    else false

/-- `supported_unicode_escape`. -/
def supportedUnicodeEscape : List Char → Bool
  | '{' :: chars => supportedDigits 0 chars
  | _ => false

/-- The value of a hexadecimal digit. -/
def hexValue (ch : Char) : Nat :=
  if isAsciiDigit ch then ch.toNat - 48
  else if 'a' ≤ ch then ch.toNat - 87
  else ch.toNat - 55

/-- The digits of `from_str_radix`. -/
def radixDigits (value : Nat) : List Char → Except String UInt32
  | [] => .ok (UInt32.ofNat value)
  | c :: digits =>
    if isAsciiHexdigit c then
      if 16 * value + hexValue c < 2 ^ 32 then radixDigits (16 * value + hexValue c) digits
      else .error "number too large to fit in target type"
    else .error "invalid digit found in string"

/-- `u32::from_str_radix` at sixteen. -/
def fromStrRadix : List Char → Except String UInt32
  | [] => .error "cannot parse integer from empty string"
  | ['+'] => .error "invalid digit found in string"
  | '+' :: digits => radixDigits 0 digits
  | digits => radixDigits 0 digits

/-- A Unicode escape, behind its letter. -/
def decodeUnicode (escape : Char) (after : Nat) (pinnedUnicode : Bool) (chars : List Char) :
    Except LiteralError (UInt32 × List Char) :=
  match chars with
  | '{' :: chars =>
    let digits := chars.takeWhile (· ≠ '}')
    match chars.dropWhile (· ≠ '}') with
    | [] => .error (.MalformedUnicode "unfinished Unicode escape" escape after)
    | _ :: rest =>
      match fromStrRadix digits with
      | .error error =>
        .error (.MalformedUnicode ("invalid Unicode escape: " ++ error) escape after)
      | .ok value =>
        if pinnedUnicode then .ok (value, rest)
        else if (charFromU32 value).isNone then
          .error (.MalformedUnicode "invalid Unicode code point" escape after)
        else .error (.UnknownEscape escape after)
  | _ => .error (.MalformedUnicode "Unicode escape needs braces" escape after)

/-- `decode_literal_code`: the code, and the characters behind it.  The position is that of the
next character. -/
def decodeLiteralCode (c : Char) (at_ : Nat) (chars : List Char) :
    Except LiteralError (UInt32 × List Char) :=
  if c ≠ '\\' then .ok (c.val, chars)
  else
    match chars with
    | [] => .error (.Other "unfinished escape")
    | escape :: chars =>
      let after := 1 + at_ + escape.utf8Size
      let pinnedUnicode := supportedUnicodeEscape chars
      if escape = 'n' then .ok (10, chars)
      else if escape = 't' then .ok (9, chars)
      else if escape = 'r' then .ok (13, chars)
      else if escape = '0' then .ok (0, chars)
      else if escape = '\\' then .ok (92, chars)
      else if escape = '\'' then .ok (39, chars)
      else if escape = '"' then .ok (34, chars)
      else if escape = 'u' ∨ (escape = 'U' ∧ pinnedUnicode) then
        decodeUnicode escape after pinnedUnicode chars
      else .error (.UnknownEscape escape after)

/-- The loop of `decode_literal` from a position on, for a number of turns. -/
def decodeLoop (length : Nat) : Nat → List Char → List UInt32 → Except LiteralError (List UInt32)
  | _, [], out => .ok out
  | 0, _ :: _, _ => .error .NoTurnsLeft
  | turns + 1, c :: chars, out =>
    match decodeLiteralCode c (length - utf8Len chars) chars with
    | .error error => .error error
    | .ok (code, rest) => decodeLoop length turns rest (out ++ [code])

/-- `decode_literal`, on a token with its quotes. -/
def decodeLiteral (raw : List Char) : Except LiteralError (List UInt32) :=
  let content := raw.tail.dropLast
  decodeLoop (utf8Len content) content.length content []

/-- A Unicode escape consumes text only. -/
theorem decodeUnicode_length {escape : Char} {after : Nat} {pinnedUnicode : Bool}
    {chars rest : List Char} {code : UInt32}
    (h : decodeUnicode escape after pinnedUnicode chars = .ok (code, rest)) :
    rest.length ≤ chars.length := by
  unfold decodeUnicode at h
  split at h
  · next more =>
    have hdrop := length_dropWhile (fun c : Char => decide (c ≠ '}')) more
    simp only at h
    split at h
    · cases h
    · next c tail hrest =>
      rw [hrest, List.length_cons] at hdrop
      split at h
      · cases h
      · split at h
        · cases h
          rw [List.length_cons]
          omega
        · split at h
          · cases h
          · cases h
  · cases h

/-- A code consumes text only. -/
theorem decodeLiteralCode_length {c : Char} {at_ : Nat} {chars rest : List Char} {code : UInt32}
    (h : decodeLiteralCode c at_ chars = .ok (code, rest)) : rest.length ≤ chars.length := by
  unfold decodeLiteralCode at h
  split at h
  · cases h
    exact Nat.le_refl _
  · cases chars with
    | nil => cases h
    | cons escape chars =>
      simp only at h
      refine Nat.le_succ_of_le ?_
      repeat' split at h
      all_goals first
        | exact decodeUnicode_length h
        | cases h
          try exact Nat.le_refl _

/-- As many turns as characters are enough: one more changes nothing. -/
theorem decodeLoop_fuel {length turns : Nat} {chars : List Char} {out : List UInt32}
    (hturns : chars.length ≤ turns) :
    decodeLoop length (turns + 1) chars out = decodeLoop length turns chars out := by
  induction turns generalizing chars out with
  | zero =>
    obtain rfl : chars = [] := List.length_eq_zero_iff.mp (Nat.le_zero.mp hturns)
    rfl
  | succ turns ih =>
    cases chars with
    | nil => rfl
    | cons c chars =>
      rw [decodeLoop, decodeLoop]
      split
      · rfl
      · next code rest hcode =>
        have hlength := decodeLiteralCode_length hcode
        rw [List.length_cons] at hturns
        exact ih (by omega)

/-! ## 3. Hexadecimal digits -/

theorem isAsciiHexdigit_digitChar {d : Nat} (hd : d < 16) :
    isAsciiHexdigit d.digitChar = true ∧ hexValue d.digitChar = d := by
  revert d
  decide

theorem ne_of_isAsciiHexdigit {c d : Char} (hc : isAsciiHexdigit c = true)
    (hd : isAsciiHexdigit d = false) : c ≠ d := fun h => by
  rw [h, hd] at hc
  exact Bool.noConfusion hc

/-- Hexadecimal numerals are written in hexadecimal digits. -/
theorem isAsciiHexdigit_toDigits (n : Nat) : ∀ c ∈ Nat.toDigits 16 n, isAsciiHexdigit c = true := by
  induction n using Nat.strongRecOn with
  | ind n ih =>
    rcases Nat.lt_or_ge n 16 with hlt | hge
    · rw [Nat.toDigits_of_lt_base hlt]
      intro c hc
      rw [List.mem_singleton.mp hc]
      exact (isAsciiHexdigit_digitChar hlt).1
    · rw [Nat.toDigits_of_base_le (by decide) hge]
      intro c hc
      rcases List.mem_append.mp hc with hc | hc
      · exact ih (n / 16) (by omega) c hc
      · rw [List.mem_singleton.mp hc]
        exact (isAsciiHexdigit_digitChar (Nat.mod_lt n (by decide))).1

/-- A small number has few digits. -/
theorem length_toDigits (k n : Nat) (hn : n < 16 ^ (k + 1)) :
    (Nat.toDigits 16 n).length ≤ k + 1 := by
  induction k generalizing n with
  | zero =>
    rw [Nat.toDigits_of_lt_base (by omega), List.length_singleton]
  | succ k ih =>
    rcases Nat.lt_or_ge n 16 with hlt | hge
    · rw [Nat.toDigits_of_lt_base hlt, List.length_singleton]
      omega
    · rw [Nat.toDigits_of_base_le (by decide) hge, List.length_append, List.length_singleton]
      have hdiv : n / 16 < 16 ^ (k + 1) := Nat.div_lt_of_lt_mul (by rw [pow_succ] at hn; omega)
      have := ih (n / 16) hdiv
      omega

theorem radixDigits_toDigits {n : Nat} (hn : n < 2 ^ 32) (more : List Char) :
    radixDigits 0 (Nat.toDigits 16 n ++ more) = radixDigits n more := by
  induction n using Nat.strongRecOn generalizing more with
  | ind n ih =>
    rcases Nat.lt_or_ge n 16 with hlt | hge
    · obtain ⟨hdigit, hvalue⟩ := isAsciiHexdigit_digitChar hlt
      rw [Nat.toDigits_of_lt_base hlt, List.singleton_append, radixDigits, if_pos hdigit, hvalue,
        Nat.mul_zero, Nat.zero_add, if_pos hn]
    · obtain ⟨hdigit, hvalue⟩ := isAsciiHexdigit_digitChar (Nat.mod_lt n (show 0 < 16 by decide))
      rw [Nat.toDigits_of_base_le (by decide) hge, List.append_assoc,
        ih (n / 16) (by omega) (by omega), List.singleton_append, radixDigits, if_pos hdigit,
        hvalue, Nat.div_add_mod, if_pos hn]

theorem isAsciiHexdigit_lowerHex {value : UInt32} {c : Char} (hc : c ∈ lowerHex value) :
    isAsciiHexdigit c = true := isAsciiHexdigit_toDigits _ c hc

theorem lowerHex_ne_nil (value : UInt32) : lowerHex value ≠ [] := by
  rw [lowerHex]
  rcases Nat.lt_or_ge value.toNat 16 with hlt | hge
  · simp [Nat.toDigits_of_lt_base hlt]
  · simp [Nat.toDigits_of_base_le (show 1 < 16 by decide) hge]

theorem length_lowerHex (value : UInt32) : (lowerHex value).length ≤ 8 :=
  length_toDigits 7 value.toNat value.toNat_lt

/-- A word reads back from its hexadecimal text. -/
theorem fromStrRadix_lowerHex (value : UInt32) : fromStrRadix (lowerHex value) = .ok value := by
  have hradix := radixDigits_toDigits value.toNat_lt []
  rw [List.append_nil] at hradix
  have hdigits : radixDigits 0 (lowerHex value) = .ok value := by
    rw [lowerHex, hradix, radixDigits, UInt32.ofNat_toNat]
  cases hhex : lowerHex value with
  | nil => exact absurd hhex (lowerHex_ne_nil value)
  | cons c digits =>
    have hc : c ≠ '+' := ne_of_isAsciiHexdigit
      (isAsciiHexdigit_lowerHex (hhex ▸ List.mem_cons_self)) rfl
    rw [hhex] at hdigits
    unfold fromStrRadix
    split
    · next h => cases h
    · next h => exact absurd (List.cons.inj h).1 hc
    · next h => exact absurd (List.cons.inj h).1 hc
    · exact hdigits

/-- Up to eight digits and a closing brace. -/
theorem supportedDigits_append {digits : List Char} (count : Nat) (more : List Char)
    (hdigits : ∀ c ∈ digits, isAsciiHexdigit c = true) (hmany : 0 < count + digits.length)
    (hfew : count + digits.length ≤ 8) :
    supportedDigits count (digits ++ '}' :: more) = true := by
  induction digits generalizing count with
  | nil =>
    rw [List.length_nil] at hmany
    rw [List.nil_append, supportedDigits, if_pos ⟨rfl, by omega⟩]
  | cons c digits ih =>
    rw [List.length_cons] at hmany hfew
    have hc := hdigits c List.mem_cons_self
    have hbrace : c ≠ '}' := ne_of_isAsciiHexdigit hc rfl
    rw [List.cons_append, supportedDigits, if_neg fun h => hbrace h.1, if_pos ⟨by omega, hc⟩]
    exact ih (count + 1) (fun d hd => hdigits d (List.mem_cons_of_mem c hd)) (by omega) (by omega)

/-! ## 4. One code -/

/-- The letters of the short escapes and what they stand for. -/
def shortEscapes : List (Char × UInt32) :=
  [('n', 10), ('t', 9), ('r', 13), ('0', 0), ('\\', 92), ('\'', 39), ('"', 34)]

/-- The three ways in which a code is written. -/
inductive Written (quote : Char) : UInt32 → List Char → Prop where
  | plain (ch : Char) (hbreak : ch ≠ '\n') (hescape : ch ≠ '\\') (hquote : ch ≠ quote) :
      Written quote ch.val [ch]
  | short (letter : Char) (value : UInt32) (h : (letter, value) ∈ shortEscapes) :
      Written quote value ['\\', letter]
  | unicode (value : UInt32) :
      Written quote value ('\\' :: 'u' :: '{' :: (lowerHex value ++ ['}']))

/-- A code that is not in the ranges of the Unicode escapes is a character. -/
theorem charFromU32_of_plain {value : UInt32} (hsurrogate : ¬ (0xd800 ≤ value ∧ value ≤ 0xdfff))
    (hlarge : ¬ 0x110000 ≤ value) :
    ∃ ch : Char, charFromU32 value = some ch ∧ ch.val = value := by
  have hvalid : value.isValidChar := by
    simp only [UInt32.le_iff_toNat_le] at hsurrogate hlarge
    simp only [UInt32.isValidChar, Nat.isValidChar]
    simp at hsurrogate hlarge
    omega
  exact ⟨⟨value, hvalid⟩, by rw [charFromU32, dif_pos hvalid], rfl⟩

theorem written_of_plain {value : UInt32} {quote ch : Char} (hval : ch.val = value)
    (h10 : value ≠ 10) (h92 : value ≠ 92) (hquote : value ≠ quote.val) :
    Written quote value [ch] := by
  subst hval
  exact .plain ch (fun h => h10 (by rw [h]; rfl)) (fun h => h92 (by rw [h]; rfl))
    (fun h => hquote (by rw [h]))

/-- What is written of a character spells it. -/
theorem writeCharacter_written (value : UInt32) {quote : Char}
    (hquote : quote = '"' ∨ quote = '\'') :
    ∃ text, writeCharacter value quote = some text ∧ Written quote value text := by
  have hshort : ∀ {letter code}, (letter, code) ∈ shortEscapes → ∃ text,
      some ['\\', letter] = some text ∧ Written quote code text := fun h =>
    ⟨_, rfl, .short _ _ h⟩
  unfold writeCharacter
  split
  · next h => exact h ▸ hshort (by decide)
  split
  · next h => exact h ▸ hshort (by decide)
  split
  · next h => exact h ▸ hshort (by decide)
  split
  · next h => exact h ▸ hshort (by decide)
  split
  · next h => exact h ▸ hshort (by decide)
  split
  · next h => exact h.1 ▸ hshort (by decide)
  split
  · next h => exact h.1 ▸ hshort (by decide)
  split
  · exact ⟨_, rfl, .unicode value⟩
  · next h10 _ _ _ h92 h39 h34 hrange =>
    simp only [not_or] at hrange
    obtain ⟨ch, hch, hval⟩ := charFromU32_of_plain hrange.2.2.1 hrange.2.2.2
    refine ⟨[ch], by rw [hch, Option.map_some], written_of_plain hval h10 h92 ?_⟩
    rcases hquote with rfl | rfl
    · exact fun h => h34 ⟨h, rfl⟩
    · exact fun h => h39 ⟨h, rfl⟩

/-- The scan of a literal passes over characters that mean nothing to it. -/
theorem scanQuoted_plain {ch : Char} {text : List Char}
    (h : ∀ c ∈ text, c ≠ '\n' ∧ c ≠ '\\' ∧ c ≠ ch) (rest : List Char) :
    scanQuoted ch false (text ++ rest) = scanQuoted ch false rest := by
  induction text with
  | nil => rfl
  | cons c text ih =>
    obtain ⟨hbreak, hescape, hquote⟩ := h c List.mem_cons_self
    rw [List.cons_append, scanQuoted, if_neg hbreak, if_neg Bool.false_ne_true, if_neg hescape,
      if_neg hquote]
    exact ih fun d hd => h d (List.mem_cons_of_mem c hd)

theorem scanQuoted_escaped {ch letter : Char} (hletter : letter ≠ '\n') (rest : List Char) :
    scanQuoted ch false ('\\' :: letter :: rest) = scanQuoted ch false rest := by
  rw [scanQuoted, if_neg (by decide), if_neg Bool.false_ne_true, if_pos rfl, scanQuoted,
    if_neg hletter, if_pos rfl]

/-- A written code does not end the literal. -/
theorem scanQuoted_written {quote : Char} (hquote : quote = '"' ∨ quote = '\'') {value : UInt32}
    {text : List Char} (h : Written quote value text) (rest : List Char) :
    scanQuoted quote false (text ++ rest) = scanQuoted quote false rest := by
  cases h with
  | plain ch hbreak hescape hch =>
    refine scanQuoted_plain (fun c hc => ?_) rest
    rw [List.mem_singleton.mp hc]
    exact ⟨hbreak, hescape, hch⟩
  | short letter value hmem =>
    have hletter : ∀ e ∈ shortEscapes, e.1 ≠ '\n' := by decide
    exact scanQuoted_escaped (hletter _ hmem) rest
  | unicode value =>
    have hplain : ∀ c ∈ '{' :: (lowerHex value ++ ['}']), c ≠ '\n' ∧ c ≠ '\\' ∧ c ≠ quote := by
      intro c hc
      rw [List.mem_cons, List.mem_append, List.mem_singleton] at hc
      rcases hc with rfl | hc | rfl
      · rcases hquote with rfl | rfl <;> decide
      · have hhex := isAsciiHexdigit_lowerHex hc
        refine ⟨ne_of_isAsciiHexdigit hhex rfl, ne_of_isAsciiHexdigit hhex rfl, ?_⟩
        rcases hquote with rfl | rfl
        · exact ne_of_isAsciiHexdigit hhex rfl
        · exact ne_of_isAsciiHexdigit hhex rfl
      · rcases hquote with rfl | rfl <;> decide
    rw [List.cons_append, List.cons_append, scanQuoted_escaped (by decide)]
    exact scanQuoted_plain hplain rest

theorem decodeUnicode_lowerHex (value : UInt32) (escape : Char) (after : Nat)
    (rest : List Char) :
    decodeUnicode escape after true ('{' :: (lowerHex value ++ '}' :: rest)) =
      .ok (value, rest) := by
  have hdigits : ∀ c ∈ lowerHex value, decide (c ≠ '}') = true := fun c hc =>
    decide_eq_true (ne_of_isAsciiHexdigit (isAsciiHexdigit_lowerHex hc) rfl)
  have htake : (lowerHex value ++ '}' :: rest).takeWhile (· ≠ '}') = lowerHex value := by
    rw [List.takeWhile_append_of_pos hdigits, List.takeWhile_cons_of_neg (by decide),
      List.append_nil]
  have hdrop : (lowerHex value ++ '}' :: rest).dropWhile (· ≠ '}') = '}' :: rest := by
    rw [List.dropWhile_append_of_pos hdigits, List.dropWhile_cons_of_neg (by decide)]
  simp only [decodeUnicode, htake, hdrop, fromStrRadix_lowerHex, if_true]

/-- A written code is read as itself. -/
theorem decode_written {quote : Char} {value : UInt32} {text : List Char}
    (h : Written quote value text) (length turns : Nat) (rest : List Char) (out : List UInt32) :
    decodeLoop length (turns + 1) (text ++ rest) out =
      decodeLoop length turns rest (out ++ [value]) := by
  cases h with
  | plain ch hbreak hescape hch =>
    simp [decodeLoop, decodeLiteralCode, hescape]
  | short letter value hmem =>
    have hcode : ∀ e ∈ shortEscapes, ∀ at_ chars,
        decodeLiteralCode '\\' at_ (e.1 :: chars) = .ok (e.2, chars) := by
      simp [shortEscapes, decodeLiteralCode]
    rw [List.cons_append, decodeLoop, List.singleton_append, hcode _ hmem]
  | unicode value =>
    have hsupported : supportedUnicodeEscape ('{' :: (lowerHex value ++ '}' :: rest)) = true :=
      supportedDigits_append 0 rest (fun c hc => isAsciiHexdigit_lowerHex hc)
        (by
          have := List.length_pos_iff.mpr (lowerHex_ne_nil value)
          omega)
        (by
          have := length_lowerHex value
          omega)
    have htext : ('\\' :: 'u' :: '{' :: (lowerHex value ++ ['}'])) ++ rest =
        '\\' :: 'u' :: '{' :: (lowerHex value ++ '}' :: rest) := by simp
    rw [htext, decodeLoop]
    simp [decodeLiteralCode, hsupported, decodeUnicode_lowerHex]

/-! ## 5. One token -/

/-- A quoted text whose scan ends with it is one token, in either mode. -/
theorem lex_quoted {quote : Char} (hquote : quote = '"' ∨ quote = '\'') {text : List Char}
    (hscan : scanQuoted quote false (text ++ [quote]) = ([], true))
    (hraw : ['\'', '\''].isPrefixOf (quote :: (text ++ [quote])) = false) (label : String) :
    lex (quote :: (text ++ [quote])) label =
      let source := quote :: (text ++ [quote])
      .ok [⟨source, 1, 1, 0, utf8Len source⟩,
        ⟨[], 1, 1 + source.length, utf8Len source, utf8Len source⟩] := by
  have hblank : isWhitespace quote = false := by rcases hquote with rfl | rfl <;> rfl
  have hhash : quote ≠ '#' := by rcases hquote with rfl | rfl <;> decide
  have hstart : (quote == '"' || quote == '\'') = true := by
    rcases hquote with rfl | rfl <;> rfl
  have htoken : ∀ raw, scanToken raw quote (text ++ [quote]) = .ok [] := fun raw => by
    rw [scanToken, hraw, Bool.and_false, if_neg Bool.false_ne_true, if_pos hstart, scanLiteral,
      hscan]
  have hmode : ∀ raw, lexTokensMode (quote :: (text ++ [quote])) label raw =
      .ok [⟨quote :: (text ++ [quote]), 1, 1, 0, utf8Len (quote :: (text ++ [quote]))⟩,
        ⟨[], 1, 1 + (quote :: (text ++ [quote])).length, utf8Len (quote :: (text ++ [quote])),
          utf8Len (quote :: (text ++ [quote]))⟩] := fun raw => by
    rw [lexTokensMode, List.length_cons, lexLoop_cons rfl, hblank, if_neg Bool.false_ne_true,
      if_neg hhash, htoken]
    simp only
    have hturns : (text ++ [quote]).length = text.length + 1 := by simp
    have hall : (quote :: (text ++ [quote])).take (text.length + 2) = quote :: (text ++ [quote]) :=
      List.take_of_length_le (by simp)
    rw [hturns, lexLoop]
    simp [Cursor.token, hall]
  unfold lex
  rw [hmode, hmode]
  simp

/-! ## 6. Values -/

/-- A complete string value, and the codes of its characters. -/
inductive Spells : Term → List UInt32 → Prop where
  | nil : Spells (.Ctr "SNil" []) []
  | cons {head tail : Term} {code : UInt32} {codes : List UInt32}
      (hhead : literalCharacter head = some code) (htail : Spells tail codes) :
      Spells (.Ctr "SCon" [head, tail]) (code :: codes)

theorem stringPlanFrom_spells {value : Term} {codes : List UInt32} (h : Spells value codes)
    (length : Nat) : stringPlanFrom length 0 value = some (0, true) := by
  induction h generalizing length with
  | nil => simp [stringPlanFrom]
  | cons hhead _ ih => simp [stringPlanFrom, hhead, ih]

/-- A string is written code by code. -/
theorem writeTail_spells {value : Term} {codes : List UInt32} (h : Spells value codes) :
    ∃ text, writeTail value = some text ∧ codes.length ≤ text.length ∧
      scanQuoted '"' false (text ++ ['"']) = ([], true) ∧
      ∀ length turns out, codes.length ≤ turns →
        decodeLoop length turns text out = .ok (out ++ codes) := by
  induction h with
  | nil =>
    refine ⟨[], by simp [writeTail], Nat.le_refl _, by decide, fun length turns out _ => ?_⟩
    rw [List.append_nil]
    cases turns <;> rfl
  | @cons head tail code codes hhead htail ih =>
    obtain ⟨more, hmore, hlength, hscan, hdecode⟩ := ih
    obtain ⟨text, htext, hwritten⟩ := writeCharacter_written code (.inl rfl)
    have hpos : 1 ≤ text.length := by cases hwritten <;> simp
    refine ⟨text ++ more, by simp [writeTail, hhead, htext, hmore], ?_, ?_,
      fun length turns out hturns => ?_⟩
    · rw [List.length_cons, List.length_append]
      omega
    · rw [List.append_assoc, scanQuoted_written (.inl rfl) hwritten, hscan]
    · obtain ⟨turns, rfl⟩ : ∃ n, turns = n + 1 := ⟨turns - 1, by simp at hturns; omega⟩
      rw [decode_written hwritten, hdecode length turns (out ++ [code]) (by simpa using hturns),
        List.append_assoc, List.singleton_append]

/-- A bit as a value. -/
def bitTerm (b : Bool) : Term := .Ctr (if b then "True" else "False") []

/-- The word of a code, for the bits that are left. -/
def wordTerm (code : Nat) : Nat → Term
  | 0 => .Ctr "WNil" []
  | left + 1 => .Ctr "WCon" [bitTerm (code.testBit (31 - left)), wordTerm code left]

/-- The character of a code. -/
def characterTerm (code : UInt32) : Term := .Ctr "Chr" [.Ctr "U32" [wordTerm code.toNat 32]]

/-- The string of a list of codes. -/
def stringTerm : List UInt32 → Term
  | [] => .Ctr "SNil" []
  | code :: codes => .Ctr "SCon" [characterTerm code, stringTerm codes]

theorem toNat_bit {k : Nat} (hk : k < 32) : ((1 : UInt32) <<< UInt32.ofNat k).toNat = 2 ^ k := by
  rw [UInt32.toNat_shiftLeft, UInt32.toNat_ofNat', Nat.mod_eq_of_lt (show k < 2 ^ 32 by omega),
    Nat.mod_eq_of_lt hk, UInt32.toNat_one, Nat.one_shiftLeft]
  exact Nat.mod_eq_of_lt (Nat.pow_lt_pow_right (by decide) hk)

/-- The bits below a position, with the bit there. -/
theorem mod_two_pow_step (code k : Nat) :
    code % 2 ^ (k + 1) =
      if code.testBit k then code % 2 ^ k ||| 2 ^ k else code % 2 ^ k := by
  apply Nat.eq_of_testBit_eq
  intro j
  rcases Nat.lt_trichotomy j k with hj | rfl | hj
  · split <;> simp [hj, Nat.lt_succ_of_lt hj, Nat.ne_of_gt hj]
  · split
    · next h => simp [h]
    · next h => simp [Bool.not_eq_true _ ▸ h]
  · have hne : k ≠ j := Nat.ne_of_lt hj
    have hle : ¬ j < k := by omega
    have hsucc : ¬ j < k + 1 := by omega
    split <;> simp [hne, hle, hsucc]

/-- The bits of a word read back. -/
theorem literalWordFrom_wordTerm {code : UInt32} (left : Nat) (hleft : left ≤ 32) {value : UInt32}
    (hvalue : value.toNat = code.toNat % 2 ^ (32 - left)) :
    literalWordFrom left value (wordTerm code.toNat left) = some code := by
  induction left generalizing value with
  | zero =>
    have hcode : value = code := by
      apply UInt32.toNat_inj.mp
      rw [hvalue]
      exact Nat.mod_eq_of_lt code.toNat_lt
    simp [literalWordFrom, wordTerm, stripAnn, hcode]
  | succ left ih =>
    have hnext : 32 - left = 31 - left + 1 := by omega
    have hhere : 32 - (left + 1) = 31 - left := by omega
    have hmod := mod_two_pow_step code.toNat (31 - left)
    rw [hhere] at hvalue
    rw [← hnext, ← hvalue] at hmod
    cases hb : code.toNat.testBit (31 - left) with
    | true =>
      have hor : (value ||| (1 <<< UInt32.ofNat (31 - left))).toNat =
          code.toNat % 2 ^ (32 - left) := by
        rw [hmod, hb, if_pos rfl, UInt32.toNat_or, toNat_bit (by omega)]
      simp [literalWordFrom, wordTerm, stripAnn, bitTerm, hb, ih (by omega) hor]
    | false =>
      have hsame : value.toNat = code.toNat % 2 ^ (32 - left) := by
        rw [hmod, hb, if_neg Bool.false_ne_true]
      simp [literalWordFrom, wordTerm, stripAnn, bitTerm, hb, ih (by omega) hsame]

theorem literalCharacter_characterTerm (code : UInt32) :
    literalCharacter (characterTerm code) = some code := by
  have hword : literalWord (wordTerm code.toNat 32) = some code :=
    literalWordFrom_wordTerm 32 (Nat.le_refl _) (Nat.mod_one _).symm
  simp [literalCharacter, characterTerm, stripAnn, hword]

theorem spells_stringTerm (codes : List UInt32) : Spells (stringTerm codes) codes := by
  induction codes with
  | nil => exact .nil
  | cons code codes ih => exact .cons (literalCharacter_characterTerm code) ih

theorem natSpine_character {value : Term} {code : UInt32}
    (h : literalCharacter value = some code) : natSpine value = none := by
  unfold literalCharacter at h
  split at h
  · next name number =>
    split at h
    · next hname => simp [natSpine, natSpineFrom, hname]
    · cases h
  · cases h

/-- The text of a literal is one token to its end, and is read as the codes. -/
def ReadsBack (text : List Char) (codes : List UInt32) : Prop :=
  (∀ label, lex text label = .ok [⟨text, 1, 1, 0, utf8Len text⟩,
    ⟨[], 1, 1 + text.length, utf8Len text, utf8Len text⟩]) ∧
  decodeLiteral text = .ok codes

/-- Every list of codes is that of a string value, every code that of a character value, and the
text of each such value reads back. -/
theorem literals_read_back :
    (∀ codes, ∃ value, Spells value codes) ∧
      (∀ value codes, Spells value codes →
        ∃ text, displayLiteral value = some text ∧ ReadsBack text codes) ∧
      (∀ code, ∃ value, literalCharacter value = some code) ∧
      ∀ value code, literalCharacter value = some code →
        ∃ text, displayLiteral value = some text ∧ ReadsBack text [code] := by
  refine ⟨fun codes => ⟨_, spells_stringTerm codes⟩, fun value codes h => ?_,
    fun code => ⟨_, literalCharacter_characterTerm code⟩, fun value code h => ?_⟩
  · obtain ⟨text, htext, hlength, hscan, hdecode⟩ := writeTail_spells h
    have hspine : natSpine value = none := by cases h <;> simp [natSpine, natSpineFrom]
    have hcharacter : literalCharacter value = none := by cases h <;> simp [literalCharacter]
    have hplan : stringPlan value = some (0, true) := stringPlanFrom_spells h 0
    refine ⟨'"' :: (text ++ ['"']), by simp [displayLiteral, hspine, hcharacter, hplan, htext],
      fun label => lex_quoted (.inl rfl) hscan rfl label, ?_⟩
    have hread := hdecode (utf8Len text) text.length [] hlength
    simpa [decodeLiteral] using hread
  · obtain ⟨text, htext, hwritten⟩ := writeCharacter_written code (.inr rfl)
    have hspine : natSpine value = none := natSpine_character h
    have hscan : scanQuoted '\'' false (text ++ ['\'']) = ([], true) := by
      rw [scanQuoted_written (.inr rfl) hwritten]
      decide
    have hraw : ['\'', '\''].isPrefixOf ('\'' :: (text ++ ['\''])) = false := by
      cases hwritten with
      | plain ch _ _ hquote => simp [List.isPrefixOf, Ne.symm hquote]
      | short => simp [List.isPrefixOf]
      | unicode => simp [List.isPrefixOf]
    refine ⟨'\'' :: (text ++ ['\'']), by simp [displayLiteral, hspine, h, htext],
      fun label => lex_quoted (.inr rfl) hscan hraw label, ?_⟩
    have hpos : 1 ≤ text.length := by cases hwritten <;> simp
    obtain ⟨turns, hturns⟩ : ∃ turns, text.length = turns + 1 := ⟨text.length - 1, by omega⟩
    have hread := decode_written hwritten (utf8Len text) turns [] []
    rw [List.append_nil] at hread
    have hend : decodeLoop (utf8Len text) turns [] ([] ++ [code]) = .ok [code] := by
      cases turns <;> rfl
    rw [hend, ← hturns] at hread
    simpa [decodeLiteral] using hread

end TeamyBend.Syntax
