/-
# The lexer

`lex_tokens_mode` without its diagnostic prefix, which only collects what it has seen.  A position
of the source is a byte offset and the text from it on; here the loop carries both.  Each turn takes
a white space, a comment or a token, so as many turns as there are characters are enough
(`lexLoop_fuel`).

`lex_tokens` reads a source that holds three apostrophes in a row twice: first with the apostrophe
between apostrophes as a token, and without it where that fails.
-/
import Mathlib.Algebra.Order.Ring.Nat
import Mathlib.Tactic.Common

namespace TeamyBend.Syntax.Lexer

/-! ## 1. Tokens and errors -/

/-- The message of a `ParseError`.  The character of the last case is printed by its `Debug`. -/
inductive Message where
  | Text (message : String)
  | UnexpectedCharacter (ch : Char)
  | NoTurnsLeft
  deriving DecidableEq

/-- `struct ParseError`. -/
structure ParseError where
  source : String
  line : Nat
  column : Nat
  message : Message
  deriving DecidableEq

/-- `struct Token`. -/
structure Token where
  text : List Char
  line : Nat
  column : Nat
  start : Nat
  end_ : Nat
  deriving DecidableEq

/-- The bytes of a text. -/
def utf8Len (text : List Char) : Nat := (text.map Char.utf8Size).sum

/-- `char::is_whitespace`. -/
def isWhitespace (ch : Char) : Bool :=
  let code := ch.toNat
  (9 ≤ code && code ≤ 13) || code == 0x20 || code == 0x85 || code == 0xa0 || code == 0x1680 ||
    (0x2000 ≤ code && code ≤ 0x200a) || code == 0x2028 || code == 0x2029 || code == 0x202f ||
    code == 0x205f || code == 0x3000

/-- `is_ascii_alphabetic`. -/
def isAsciiAlphabetic (ch : Char) : Bool := ('a' ≤ ch && ch ≤ 'z') || ('A' ≤ ch && ch ≤ 'Z')

/-- `is_ascii_digit`. -/
def isAsciiDigit (ch : Char) : Bool := '0' ≤ ch && ch ≤ '9'

/-- The characters of a name after its first. -/
def isNameCharacter (ch : Char) : Bool :=
  isAsciiAlphabetic ch || isAsciiDigit ch || ch == '_' || ch == '.'

/-! ## 2. One token

Each scan gives the text behind the token. -/

/-- The loop over a quoted literal, and whether it found the closing quote. -/
def scanQuoted (ch : Char) : Bool → List Char → List Char × Bool
  | _, [] => ([], false)
  | escaped, c :: rest =>
    if c = '\n' then (c :: rest, false)
    else if escaped then scanQuoted ch false rest
    else if c = '\\' then scanQuoted ch true rest
    else if c = ch then (rest, true)
    else scanQuoted ch false rest

/-- A quoted literal, behind its opening quote. -/
def scanLiteral (ch : Char) (rest : List Char) : Except Message (List Char) :=
  match scanQuoted ch false rest with
  | (rest, true) => .ok rest
  | ('\n' :: _, false) => .error (.Text "a string or character literal cannot cross a line")
  | (_, false) => .error (.Text "unterminated literal")

/-- A name, behind its first character. -/
def scanName (rest : List Char) : Except Message (List Char) :=
  if (rest.takeWhile isNameCharacter).getLast? = some '.' then
    .error (.Text "a name cannot end with a dot")
  else .ok (rest.dropWhile isNameCharacter)

/-- The sign of an exponent and its digits. -/
def scanExponent : List Char → List Char
  | '+' :: rest => rest.dropWhile isAsciiDigit
  | '-' :: rest => rest.dropWhile isAsciiDigit
  | rest => rest.dropWhile isAsciiDigit

/-- What follows the point of a number. -/
def scanFraction (rest : List Char) : List Char :=
  match rest.dropWhile isAsciiDigit with
  | 'e' :: rest => scanExponent rest
  | 'E' :: rest => scanExponent rest
  | rest => rest

/-- A number, from its first digit on. -/
def scanNumber (rest : List Char) : Except Message (List Char) :=
  let rest := match rest.dropWhile isAsciiDigit with
    | 'n' :: rest => rest
    | '.' :: rest => scanFraction rest
    | rest => rest
  match rest with
  | [] => .ok []
  | c :: rest =>
    if isAsciiAlphabetic c || c == '_' then .error (.Text "invalid numeric literal suffix")
    else .ok (c :: rest)

/-- The operators of more than one character. -/
def punctuation : List (List Char) :=
  [['<', '&', '>'], ['.', '|', '.'], ['.', '^', '.'], ['.', '&', '.'], ['=', '>'], ['-', '>'],
    ['=', '='], ['!', '='], ['<', '='], ['>', '='], ['<', '>'], ['+', '+'], ['<', '<'],
    ['>', '>'], ['&', '&'], ['|', '|'], ['<', '-']]

/-- The operators of one character. -/
def operators : List Char :=
  ['@', '&', '+', '\\', '%', '{', '}', '(', ')', '[', ']', '?', ':', ',', ';', '=', '<', '>',
    '-', '*', '/', '|', '~', '!', '^']

/-- An operator. -/
def scanOperator (ch : Char) (rest : List Char) : Except Message (List Char) :=
  match punctuation.find? fun op => op.isPrefixOf (ch :: rest) with
  | some op => .ok ((ch :: rest).drop op.length)
  | none =>
    if operators.contains ch then .ok rest
    else .error (.UnexpectedCharacter ch)

/-- A token, which starts with the character. -/
def scanToken (rawApostrophe : Bool) (ch : Char) (rest : List Char) :
    Except Message (List Char) :=
  if rawApostrophe && ch == '\'' && ['\'', '\''].isPrefixOf (ch :: rest) then
    if ['\'', '\'', '\''].isPrefixOf (ch :: rest) then .ok ((ch :: rest).drop 3)
    else .error (.Text "raw apostrophe needs a closing quote")
  else if ch == '"' || ch == '\'' then scanLiteral ch rest
  else if isAsciiAlphabetic ch || ch == '_' then scanName rest
  else if isAsciiDigit ch then scanNumber (ch :: rest)
  else scanOperator ch rest

/-! ## 3. The loop -/

/-- The variables of the loop. -/
structure Cursor where
  tokens : List Token
  rest : List Char
  pos : Nat
  line : Nat
  column : Nat

/-- Past a white space. -/
def Cursor.blank (s : Cursor) (ch : Char) (rest : List Char) : Cursor :=
  { s with
    rest := rest
    pos := s.pos + ch.utf8Size
    line := if ch = '\n' then s.line + 1 else s.line
    column := if ch = '\n' then 1 else s.column + 1 }

/-- Past a comment, which is counted in bytes. -/
def Cursor.comment (s : Cursor) : Cursor :=
  let text := s.rest.takeWhile (· ≠ '\n')
  { s with
    rest := s.rest.dropWhile (· ≠ '\n')
    pos := s.pos + utf8Len text
    column := s.column + utf8Len text }

/-- Past a token. -/
def Cursor.token (s : Cursor) (rest : List Char) : Cursor :=
  let text := s.rest.take (s.rest.length - rest.length)
  { s with
    tokens := s.tokens ++ [⟨text, s.line, s.column, s.pos, s.pos + utf8Len text⟩]
    rest := rest
    pos := s.pos + utf8Len text
    column := s.column + text.length }

/-- The loop of `lex_tokens_mode`, for a number of turns. -/
def lexLoop (label : String) (rawApostrophe : Bool) : Nat → Cursor → Except ParseError (List Token)
  | 0, s =>
    match s.rest with
    | [] => .ok (s.tokens ++ [⟨[], s.line, s.column, s.pos, s.pos⟩])
    | _ :: _ => .error ⟨label, s.line, s.column, .NoTurnsLeft⟩
  | turns + 1, s =>
    match s.rest with
    | [] => .ok (s.tokens ++ [⟨[], s.line, s.column, s.pos, s.pos⟩])
    | ch :: rest =>
      if isWhitespace ch then lexLoop label rawApostrophe turns (s.blank ch rest)
      else if ch = '#' then lexLoop label rawApostrophe turns s.comment
      else
        match scanToken rawApostrophe ch rest with
        | .ok rest => lexLoop label rawApostrophe turns (s.token rest)
        | .error message => .error ⟨label, s.line, s.column, message⟩

/-- `lex_tokens_mode`. -/
def lexTokensMode (source : List Char) (label : String) (rawApostrophe : Bool) :
    Except ParseError (List Token) :=
  lexLoop label rawApostrophe source.length ⟨[], source, 0, 1, 1⟩

/-- `source.contains("'''")`. -/
def holdsApostrophes : List Char → Bool
  | [] => false
  | c :: rest => ['\'', '\'', '\''].isPrefixOf (c :: rest) || holdsApostrophes rest

/-- `lex_tokens`, which is `lex`. -/
def lex (source : List Char) (label : String) : Except ParseError (List Token) :=
  if holdsApostrophes source then
    match lexTokensMode source label true with
    | .ok tokens => .ok tokens
    | .error _ => lexTokensMode source label false
  else lexTokensMode source label false

/-! ## 4. There are enough turns -/

theorem length_dropWhile (p : Char → Bool) (text : List Char) :
    (text.dropWhile p).length ≤ text.length := (List.dropWhile_suffix p).length_le

theorem scanQuoted_length (ch : Char) (escaped : Bool) (text : List Char) :
    (scanQuoted ch escaped text).1.length ≤ text.length := by
  fun_induction scanQuoted ch escaped text with
  | case1 => simp
  | case2 => simp
  | case3 _ _ _ ih => simp only [List.length_cons]; omega
  | case4 _ _ _ _ ih => simp only [List.length_cons]; omega
  | case5 => simp
  | case6 _ _ _ _ _ _ ih => simp only [List.length_cons]; omega

theorem scanLiteral_length {ch : Char} {rest out : List Char} (h : scanLiteral ch rest = .ok out) :
    out.length ≤ rest.length := by
  have hquoted := scanQuoted_length ch false rest
  unfold scanLiteral at h
  split at h
  · next hscan =>
    rw [hscan] at hquoted
    cases h
    exact hquoted
  · cases h
  · cases h

theorem scanName_length {rest out : List Char} (h : scanName rest = .ok out) :
    out.length ≤ rest.length := by
  unfold scanName at h
  split at h
  · cases h
  · cases h
    exact length_dropWhile _ _

theorem scanExponent_length (rest : List Char) : (scanExponent rest).length ≤ rest.length := by
  unfold scanExponent
  split
  · exact Nat.le_succ_of_le (length_dropWhile _ _)
  · exact Nat.le_succ_of_le (length_dropWhile _ _)
  · exact length_dropWhile _ _

/-- A fraction consumes text only. -/
theorem scanFraction_length (rest : List Char) : (scanFraction rest).length ≤ rest.length := by
  have hdrop := length_dropWhile isAsciiDigit rest
  unfold scanFraction
  split
  · next out hout =>
    rw [hout, List.length_cons] at hdrop
    have := scanExponent_length out
    omega
  · next out hout =>
    rw [hout, List.length_cons] at hdrop
    have := scanExponent_length out
    omega
  · exact hdrop

/-- The first digit of a number is part of it. -/
theorem scanNumber_length {ch : Char} {rest out : List Char} (hch : isAsciiDigit ch = true)
    (h : scanNumber (ch :: rest) = .ok out) : out.length ≤ rest.length := by
  have hdrop := length_dropWhile isAsciiDigit rest
  have hle : (match (ch :: rest).dropWhile isAsciiDigit with
      | 'n' :: rest => rest
      | '.' :: rest => scanFraction rest
      | rest => rest).length ≤ rest.length := by
    rw [List.dropWhile_cons_of_pos hch]
    split
    · next more hmore =>
      rw [hmore, List.length_cons] at hdrop
      omega
    · next more hmore =>
      rw [hmore, List.length_cons] at hdrop
      have := scanFraction_length more
      omega
    · exact hdrop
  simp only [scanNumber] at h
  split at h
  · cases h
    exact Nat.zero_le _
  · next c more hmore =>
    split at h
    · cases h
    · cases h
      rw [hmore] at hle
      exact hle

/-- An operator consumes text only. -/
theorem scanOperator_length {ch : Char} {rest out : List Char}
    (h : scanOperator ch rest = .ok out) : out.length ≤ rest.length := by
  unfold scanOperator at h
  split at h
  · next op hop =>
    have hmem : op ∈ punctuation := List.mem_of_find?_eq_some hop
    have hlong : ∀ op ∈ punctuation, 1 ≤ op.length := by decide
    have hone := hlong op hmem
    cases h
    simp only [List.length_drop, List.length_cons]
    omega
  · split at h
    · cases h
      exact Nat.le_refl _
    · cases h

/-- A token has its first character at least. -/
theorem scanToken_length {rawApostrophe : Bool} {ch : Char} {rest out : List Char}
    (h : scanToken rawApostrophe ch rest = .ok out) : out.length ≤ rest.length := by
  unfold scanToken at h
  split at h
  · split at h
    · cases h
      simp only [List.length_drop, List.length_cons]
      omega
    · cases h
  · split at h
    · exact scanLiteral_length h
    · split at h
      · exact scanName_length h
      · split at h
        · next hdigit => exact scanNumber_length hdigit h
        · exact scanOperator_length h

/-- A turn at a character. -/
theorem lexLoop_cons {label : String} {rawApostrophe : Bool} {turns : Nat} {s : Cursor} {ch : Char}
    {rest : List Char} (hrest : s.rest = ch :: rest) :
    lexLoop label rawApostrophe (turns + 1) s =
      if isWhitespace ch then lexLoop label rawApostrophe turns (s.blank ch rest)
      else if ch = '#' then lexLoop label rawApostrophe turns s.comment
      else
        match scanToken rawApostrophe ch rest with
        | .ok rest => lexLoop label rawApostrophe turns (s.token rest)
        | .error message => .error ⟨label, s.line, s.column, message⟩ := by
  rw [lexLoop, hrest]

/-- As many turns as characters are enough: one more changes nothing. -/
theorem lexLoop_fuel {label : String} {rawApostrophe : Bool} {turns : Nat} {s : Cursor}
    (hturns : s.rest.length ≤ turns) :
    lexLoop label rawApostrophe (turns + 1) s = lexLoop label rawApostrophe turns s := by
  induction turns generalizing s with
  | zero =>
    have hrest : s.rest = [] := List.length_eq_zero_iff.mp (Nat.le_zero.mp hturns)
    simp only [lexLoop, hrest]
  | succ turns ih =>
    cases hrest : s.rest with
    | nil => simp only [lexLoop, hrest]
    | cons ch rest =>
      rw [hrest, List.length_cons] at hturns
      have hblank : (s.blank ch rest).rest.length ≤ turns := by
        simp only [Cursor.blank]
        omega
      have htoken : ∀ out, scanToken rawApostrophe ch rest = .ok out →
          (s.token out).rest.length ≤ turns := fun out hout => by
        have hlength := scanToken_length hout
        simp only [Cursor.token]
        omega
      have hcomment : ch = '#' → s.comment.rest.length ≤ turns := fun hch => by
        have hdrop := length_dropWhile (fun c : Char => decide (c ≠ '\n')) rest
        have hhash : s.comment.rest = rest.dropWhile fun c => decide (c ≠ '\n') := by
          simp only [Cursor.comment, hrest, hch]
          exact List.dropWhile_cons_of_pos (by decide)
        rw [hhash]
        omega
      rw [lexLoop_cons hrest, lexLoop_cons hrest]
      split
      · exact ih hblank
      · split
        · next hch => exact ih (hcomment hch)
        · split
          · next out hout => exact ih (htoken out hout)
          · rfl

end TeamyBend.Syntax.Lexer
