/-
# Decimal text of the bundled Base

`U32.show` doubles a list of decimal digits, least significant first, once for each bit of its
word.  `Nat.show` divides by ten.  Both give the shortest numeral (`u32Show_eq`,
`shortest_natShow`).

Reading refuses a digit before the accumulator could pass the bound: `U32.read` compares the
accumulator with a tenth of the bound, and `Nat.read` compares the text of the accumulator, of
fourteen digits, with the text of a tenth of its bound.  `String.order` on two numerals of one
length is the order of their values (`order_eq_natCmp`), so both tests are the arithmetic bound.
-/
import TeamyBend.Base.Numerals
import Mathlib.Data.Nat.Digits.Lemmas

namespace TeamyBend.Base

/-! ## 1. The source -/

/-- `Cmp.is_le`. -/
def Cmp.isLe : Cmp → Bool
  | LT => true
  | EQ => true
  | GT => false

/-- `U32.is_lt`. -/
def U32.isLt (a b : U32) : Bool := (U32.cmp a b).isLt

/-- `U32.is_le`. -/
def U32.isLe (a b : U32) : Bool := (U32.cmp a b).isLe

/-- `String.length`. -/
def String.length : String → Nat
  | .SNil => 0
  | .SCon _ t => 1 + t.length

/-- `U32.show.decimal`: the digits of twice a number and a carry. -/
def u32ShowDecimal : List Nat → Nat → List Nat
  | [], 0 => []
  | [], p + 1 => [1 + p]
  | h :: t, c =>
    let d := 2 * h + c
    match natIsLt d 10 with
    | true => d :: u32ShowDecimal t 0
    | false => natSub d 10 :: u32ShowDecimal t 1

/-- `U32.show.bits`. -/
def u32ShowBits : (n : Nat) → Word n → List Nat
  | 0, _ => []
  | p + 1, .WCon false t => u32ShowDecimal (u32ShowBits p t) 0
  | p + 1, .WCon true t => u32ShowDecimal (u32ShowBits p t) 1

/-- `U32.show.character`. -/
def u32ShowCharacter : Nat → Char
  | 0 => ⟨U32.literal 48⟩
  | 1 => ⟨U32.literal 49⟩
  | 2 => ⟨U32.literal 50⟩
  | 3 => ⟨U32.literal 51⟩
  | 4 => ⟨U32.literal 52⟩
  | 5 => ⟨U32.literal 53⟩
  | 6 => ⟨U32.literal 54⟩
  | 7 => ⟨U32.literal 55⟩
  | 8 => ⟨U32.literal 56⟩
  | _ + 9 => ⟨U32.literal 57⟩

/-- `U32.show.text`. -/
def u32ShowText : List Nat → String → String
  | [], acc => acc
  | h :: t, acc => u32ShowText t (.SCon (u32ShowCharacter h) acc)

/-- `U32.show.nonzero`. -/
def u32ShowNonzero : List Nat → String
  | [] => .SCon ⟨U32.literal 48⟩ .SNil
  | h :: t => u32ShowText (h :: t) .SNil

/-- `U32.show`. -/
def u32Show (a : U32) : String := u32ShowNonzero (u32ShowBits 32 a.data)

/-- `Nat.read.bound_digit`. -/
def natReadBoundDigit (d : U32) : Cmp → Bool
  | .LT => true
  | .EQ => U32.isLe d (U32.literal 5)
  | .GT => false

/-- The text `"28147497671065"`. -/
def natReadText : String :=
  .ofCodes [50, 56, 49, 52, 55, 52, 57, 55, 54, 55, 49, 48, 54, 53] .SNil

/-- `Nat.read.bound_text`. -/
def natReadBoundText (text : String) (d : U32) : Cmp → Bool
  | .LT => true
  | .EQ => natReadBoundDigit d (String.order text natReadText)
  | .GT => false

/-- `Nat.read.bound`. -/
def natReadBound (acc : Nat) (d : U32) : Bool :=
  natReadBoundText (natShow acc) d (natCmp (natShow acc).length 14)

/-- `Nat.read.go`. -/
def natReadGo : String → Nat → Option Nat
  | .SNil, acc => some acc
  | .SCon ⟨x⟩ t, acc =>
    let d := U32.sub x (U32.literal 48)
    match U32.isLt d (U32.literal 10) && natReadBound acc d with
    | true => natReadGo t (natMul acc 10 + d.toNat)
    | false => none

/-- `Nat.read`. -/
def natRead : String → Option Nat
  | .SNil => none
  | .SCon h t => natReadGo (.SCon h t) 0

/-- `U32.read.bound_digit`. -/
def u32ReadBoundDigit (d : U32) : Cmp → Bool
  | .LT => true
  | .EQ => U32.isLe d (U32.literal 5)
  | .GT => false

/-- `U32.read.bound`. -/
def u32ReadBound (acc d : U32) : Bool :=
  U32.isLt d (U32.literal 10) && u32ReadBoundDigit d (U32.cmp acc (U32.literal 429496729))

/-- `U32.read.times_ten`. -/
def u32ReadTimesTen (acc : U32) : U32 :=
  U32.add (U32.shl acc) (U32.shl (U32.shl (U32.shl acc)))

/-- `U32.read.go`. -/
def u32ReadGo : String → U32 → Option U32
  | .SNil, acc => some acc
  | .SCon ⟨x⟩ t, acc =>
    let d := U32.sub x (U32.literal 48)
    match u32ReadBound acc d with
    | true => u32ReadGo t (U32.add (u32ReadTimesTen acc) d)
    | false => none

/-- `U32.read`. -/
def u32Read : String → Option U32
  | .SNil => none
  | .SCon h t => u32ReadGo (.SCon h t) (U32.literal 0)

/-! ## 2. Comparison is the order of numbers -/

theorem natCmp_lt {a b : Nat} (h : a < b) : natCmp a b = .LT := by
  have hlt := natIsLt_eq a b
  rw [decide_eq_true h, natIsLt, Cmp.isLt_iff] at hlt
  exact hlt

theorem natCmp_self (a : Nat) : natCmp a a = .EQ := by
  induction a with
  | zero => rfl
  | succ p ih => rw [natCmp, ih]

theorem natCmp_gt {a b : Nat} (h : b < a) : natCmp a b = .GT := by
  fun_induction natCmp a b with
  | case1 => omega
  | case2 => omega
  | case3 => rfl
  | case4 ap bp ih => exact ih (by omega)

/-- The three outcomes of a comparison. -/
theorem natCmp_cases (a b : Nat) :
    (a < b ∧ natCmp a b = .LT) ∨ (a = b ∧ natCmp a b = .EQ) ∨ (b < a ∧ natCmp a b = .GT) := by
  rcases Nat.lt_trichotomy a b with h | rfl | h
  · exact .inl ⟨h, natCmp_lt h⟩
  · exact .inr (.inl ⟨rfl, natCmp_self a⟩)
  · exact .inr (.inr ⟨h, natCmp_gt h⟩)

/-- Words are compared as natural numbers. -/
theorem u32Cmp_eq (a b : U32) : U32.cmp a b = natCmp a.toNat b.toNat := by
  rcases natCmp_cases a.toNat b.toNat with ⟨h, hcmp⟩ | ⟨h, hcmp⟩ | ⟨h, hcmp⟩
  · rw [hcmp]
    exact (Word.cmp_lt_iff a.data b.data).mpr h
  · rw [hcmp, U32.toNat_inj h]
    exact (Word.cmp_eq_iff b.data b.data).mpr rfl
  · have hswap : U32.cmp b a = .LT := (Word.cmp_lt_iff b.data a.data).mpr h
    rw [hcmp]
    rw [U32.cmp, Word.cmp_swap] at hswap
    exact (Cmp.swap_eq_lt _).mp hswap

theorem u32IsLt_eq (a b : U32) : U32.isLt a b = decide (a.toNat < b.toNat) := by
  rw [U32.isLt, u32Cmp_eq]
  exact natIsLt_eq a.toNat b.toNat

theorem u32IsLe_eq (a b : U32) : U32.isLe a b = decide (a.toNat ≤ b.toNat) := by
  rw [U32.isLe, u32Cmp_eq]
  rcases natCmp_cases a.toNat b.toNat with ⟨h, hcmp⟩ | ⟨h, hcmp⟩ | ⟨h, hcmp⟩
  · simp [hcmp, Cmp.isLe, h.le]
  · simp [hcmp, Cmp.isLe, h.le]
  · simp [hcmp, Cmp.isLe, h]

/-! ## 3. Numerals -/

/-- The codes of a text. -/
def String.codes : String → List Nat
  | .SNil => []
  | .SCon c t => c.code.toNat :: t.codes

/-- The value of digits read after a number. -/
def decimalFrom (acc : Nat) (codes : List Nat) : Nat :=
  codes.foldl (fun n code => 10 * n + (code - 48)) acc

/-- A text of digits. -/
def Digits (codes : List Nat) : Prop := ∀ code ∈ codes, 48 ≤ code ∧ code ≤ 57

instance (codes : List Nat) : Decidable (Digits codes) :=
  inferInstanceAs (Decidable (∀ code ∈ codes, 48 ≤ code ∧ code ≤ 57))

/-- The text is a numeral of the number: digits, at least one, leading zeros allowed. -/
structure Numeral (s : String) (n : Nat) : Prop where
  nonempty : s ≠ .SNil
  digits : Digits s.codes
  value : decimalFrom 0 s.codes = n

/-- The numeral has no leading zero. -/
structure Shortest (s : String) (n : Nat) : Prop extends Numeral s n where
  leading : s.codes.head? = some 48 → s.codes = [48]

@[simp] theorem String.codes_nil : String.codes .SNil = [] := rfl

@[simp] theorem String.codes_cons (c : Char) (t : String) :
    String.codes (.SCon c t) = c.code.toNat :: t.codes := rfl

theorem String.length_codes (s : String) : s.codes.length = s.length := by
  induction s with
  | SNil => rfl
  | SCon c t ih => rw [String.codes_cons, List.length_cons, ih, String.length, Nat.add_comm]

@[simp] theorem decimalFrom_nil (acc : Nat) : decimalFrom acc [] = acc := rfl

@[simp] theorem decimalFrom_cons (acc code : Nat) (codes : List Nat) :
    decimalFrom acc (code :: codes) = decimalFrom (10 * acc + (code - 48)) codes := by
  rw [decimalFrom, List.foldl_cons, decimalFrom]

theorem decimalFrom_append (acc : Nat) (codes more : List Nat) :
    decimalFrom acc (codes ++ more) = decimalFrom (decimalFrom acc codes) more :=
  List.foldl_append

/-- The number so far is shifted by the digits. -/
theorem decimalFrom_eq (acc : Nat) (codes : List Nat) :
    decimalFrom acc codes = acc * 10 ^ codes.length + decimalFrom 0 codes := by
  induction codes generalizing acc with
  | nil => simp
  | cons code codes ih =>
    rw [decimalFrom_cons, ih, decimalFrom_cons, ih (10 * 0 + (code - 48)), List.length_cons,
      pow_succ]
    ring

/-- Digits give less than the power of their number. -/
theorem decimalFrom_lt {codes : List Nat} (h : Digits codes) :
    decimalFrom 0 codes < 10 ^ codes.length := by
  induction codes with
  | nil => simp
  | cons code codes ih =>
    have hcode := h code (by simp)
    have htail := ih fun c hc => h c (by simp [hc])
    rw [decimalFrom_cons, decimalFrom_eq, List.length_cons, pow_succ]
    nlinarith [Nat.mul_le_mul_right (10 ^ codes.length) (show 10 * 0 + (code - 48) ≤ 9 by omega)]

theorem le_decimalFrom (acc : Nat) (codes : List Nat) : acc ≤ decimalFrom acc codes := by
  rw [decimalFrom_eq]
  nlinarith [Nat.one_le_pow codes.length 10 (by decide)]

/-- A larger leading digit decides, whatever follows. -/
theorem natCmp_leading {a b x y p : Nat} (hx : x < p) (hy : y < p) :
    natCmp (a * p + x) (b * p + y) = if natCmp a b = .EQ then natCmp x y else natCmp a b := by
  rcases natCmp_cases a b with ⟨h, hcmp⟩ | ⟨rfl, hcmp⟩ | ⟨h, hcmp⟩
  · have hmul : (a + 1) * p ≤ b * p := Nat.mul_le_mul_right p h
    rw [Nat.succ_mul] at hmul
    rw [hcmp, if_neg (by decide), natCmp_lt (by omega)]
  · rw [hcmp, if_pos rfl]
    rcases natCmp_cases x y with ⟨hlt, hrest⟩ | ⟨rfl, hrest⟩ | ⟨hgt, hrest⟩
    · rw [hrest, natCmp_lt (by omega)]
    · rw [natCmp_self, natCmp_self]
    · rw [hrest, natCmp_gt (by omega)]
  · have hmul : (b + 1) * p ≤ a * p := Nat.mul_le_mul_right p h
    rw [Nat.succ_mul] at hmul
    rw [hcmp, if_neg (by decide), natCmp_gt (by omega)]

theorem natCmp_sub {a b k : Nat} (ha : k ≤ a) (hb : k ≤ b) :
    natCmp (a - k) (b - k) = natCmp a b := by
  rcases natCmp_cases a b with ⟨h, hcmp⟩ | ⟨rfl, hcmp⟩ | ⟨h, hcmp⟩
  · rw [hcmp, natCmp_lt (by omega)]
  · rw [hcmp, natCmp_self]
  · rw [hcmp, natCmp_gt (by omega)]

/-- On numerals of one length the order of texts is the order of values. -/
theorem order_eq_natCmp {s t : String} (hlength : s.codes.length = t.codes.length)
    (hs : Digits s.codes) (ht : Digits t.codes) :
    String.order s t = natCmp (decimalFrom 0 s.codes) (decimalFrom 0 t.codes) := by
  induction s generalizing t with
  | SNil =>
    cases t with
    | SNil => rfl
    | SCon d t => simp at hlength
  | SCon c s ih =>
    cases t with
    | SNil => simp at hlength
    | SCon d t =>
      simp only [String.codes_cons, List.length_cons, Nat.add_right_cancel_iff] at hlength
      have hc := hs c.code.toNat (by simp)
      have hd := ht d.code.toNat (by simp)
      have hs' : Digits s.codes := fun code h => hs code (by simp [h])
      have ht' : Digits t.codes := fun code h => ht code (by simp [h])
      have hslt := decimalFrom_lt hs'
      rw [hlength] at hslt
      rw [String.order_cons, u32Cmp_eq, ih hlength hs' ht', String.codes_cons, decimalFrom_cons,
        decimalFrom_eq (10 * 0 + (c.code.toNat - 48)), String.codes_cons, decimalFrom_cons,
        decimalFrom_eq (10 * 0 + (d.code.toNat - 48)), hlength, Nat.mul_zero, Nat.zero_add,
        Nat.zero_add, natCmp_leading hslt (decimalFrom_lt ht'), natCmp_sub hc.1 hd.1]
      cases natCmp c.code.toNat d.code.toNat with
      | LT => rfl
      | EQ => rfl
      | GT => rfl

/-! ## 4. Showing -/

/-- Doubling the digits of a number and adding a bit gives the digits of the result. -/
theorem u32ShowDecimal_digits (m : Nat) {c : Nat} (hc : c ≤ 1) :
    u32ShowDecimal (Nat.digits 10 m) c = Nat.digits 10 (2 * m + c) := by
  induction m using Nat.strongRecOn generalizing c with
  | ind m ih =>
    rcases Nat.eq_zero_or_pos m with rfl | hm
    · rcases Nat.le_one_iff_eq_zero_or_eq_one.mp hc with rfl | rfl
      · simp [u32ShowDecimal]
      · simp [u32ShowDecimal]
    · have hout : Nat.digits 10 (2 * m + c) =
          (2 * m + c) % 10 :: Nat.digits 10 ((2 * m + c) / 10) :=
        Nat.digits_def' (by decide) (by omega)
      rw [Nat.digits_def' (by decide) hm, u32ShowDecimal, hout]
      simp only [natIsLt_eq, natSub_eq]
      rcases Nat.lt_or_ge (2 * (m % 10) + c) 10 with hlt | hge
      · have hmod : (2 * m + c) % 10 = 2 * (m % 10) + c := by omega
        have hdiv : (2 * m + c) / 10 = 2 * (m / 10) + 0 := by omega
        rw [decide_eq_true hlt, ih (m / 10) (by omega) (by decide), hmod, hdiv]
      · have hmod : (2 * m + c) % 10 = 2 * (m % 10) + c - 10 := by omega
        have hdiv : (2 * m + c) / 10 = 2 * (m / 10) + 1 := by omega
        rw [decide_eq_false (by omega), ih (m / 10) (by omega) (Nat.le_refl 1), hmod, hdiv]

/-- **The digits of a word** are found bit by bit. -/
theorem u32ShowBits_eq {n : Nat} (w : Word n) : u32ShowBits n w = Nat.digits 10 w.toNat := by
  induction w with
  | WNil => simp [u32ShowBits]
  | WCon b t ih =>
    cases b with
    | false =>
      rw [u32ShowBits, ih, u32ShowDecimal_digits _ (by decide), Word.toNat_wcon]
      simp
    | true =>
      rw [u32ShowBits, ih, u32ShowDecimal_digits _ (by decide), Word.toNat_wcon]
      simp [Nat.add_comm]

theorem u32ShowCharacter_eq {d : Nat} (hd : d < 10) :
    u32ShowCharacter d = ⟨U32.literal (48 + d)⟩ := by
  interval_cases d <;> rfl

/-- The digits are written from the last one on. -/
theorem u32ShowText_eq {ds : List Nat} (hds : ∀ d ∈ ds, d < 10) (acc : String) :
    u32ShowText ds acc = String.ofCodes (ds.reverse.map (48 + ·)) acc := by
  induction ds generalizing acc with
  | nil => rfl
  | cons h t ih =>
    rw [u32ShowText, ih fun d hd => hds d (by simp [hd]), u32ShowCharacter_eq (hds h (by simp)),
      List.reverse_cons, List.map_append, String.ofCodes_append]
    rfl

/-- The codes of a positive number are those of its digits. -/
theorem decimalCodes_eq {n : Nat} (hn : 0 < n) :
    decimalCodes n = (Nat.digits 10 n).reverse.map (48 + ·) := by
  induction n using Nat.strongRecOn with
  | ind n ih =>
    rw [Nat.digits_def' (by decide) hn, List.reverse_cons, List.map_append]
    rcases Nat.lt_or_ge n 10 with hlt | hge
    · simp [decimalCodes_of_lt hlt, Nat.div_eq_of_lt hlt, Nat.mod_eq_of_lt hlt]
    · rw [decimalCodes_of_le hge, ih (n / 10) (by omega) (by omega)]
      rfl

/-- **`U32.show` gives the text that `Nat.show` gives for the word's number.** -/
theorem u32Show_eq (x : U32) : u32Show x = natShow x.toNat := by
  have hdigits : u32ShowBits 32 x.data = Nat.digits 10 x.toNat := u32ShowBits_eq x.data
  rw [u32Show, hdigits, natShow_eq]
  rcases Nat.eq_zero_or_pos x.toNat with hzero | hpos
  · rw [hzero]
    simp [u32ShowNonzero, decimalCodes_of_lt]
  · rw [decimalCodes_eq hpos, ← u32ShowText_eq fun d hd => Nat.digits_lt_base (by decide) hd]
    cases hds : Nat.digits 10 x.toNat with
    | nil => exact absurd (Nat.digits_eq_nil_iff_eq_zero.mp hds) (by omega)
    | cons h t => rfl

/-- They are codes of digits. -/
theorem digits_decimalCodes (n : Nat) : Digits (decimalCodes n) := by
  induction n using Nat.strongRecOn with
  | ind n ih =>
    rcases Nat.lt_or_ge n 10 with hlt | hge
    · rw [decimalCodes_of_lt hlt]
      intro code hcode
      rw [List.mem_singleton] at hcode
      omega
    · rw [decimalCodes_of_le hge]
      intro code hcode
      rcases List.mem_append.mp hcode with hcode | hcode
      · exact ih (n / 10) (by omega) code hcode
      · rw [List.mem_singleton] at hcode
        omega

/-- And are read back. -/
theorem decimalFrom_decimalCodes (n : Nat) : decimalFrom 0 (decimalCodes n) = n := by
  induction n using Nat.strongRecOn with
  | ind n ih =>
    rcases Nat.lt_or_ge n 10 with hlt | hge
    · simp [decimalCodes_of_lt hlt]
    · rw [decimalCodes_of_le hge, decimalFrom_append, ih (n / 10) (by omega), decimalFrom_cons,
        decimalFrom_nil]
      omega

theorem decimalCodes_ne_nil (n : Nat) : decimalCodes n ≠ [] := by
  rcases Nat.lt_or_ge n 10 with hlt | hge
  · simp [decimalCodes_of_lt hlt]
  · simp [decimalCodes_of_le hge]

/-- A numeral does not begin with zero, except that of zero. -/
theorem leading_decimalCodes (n : Nat) (h : (decimalCodes n).head? = some 48) :
    decimalCodes n = [48] := by
  induction n using Nat.strongRecOn with
  | ind n ih =>
    rcases Nat.lt_or_ge n 10 with hlt | hge
    · rw [decimalCodes_of_lt hlt] at h ⊢
      simpa using h
    · rw [decimalCodes_of_le hge, List.head?_append_of_ne_nil _ (decimalCodes_ne_nil _)] at h
      have hvalue := decimalFrom_decimalCodes (n / 10)
      rw [ih (n / 10) (by omega) h] at hvalue
      simp at hvalue
      omega

theorem codes_ofCodes {codes : List Nat} (h : Digits codes) :
    (String.ofCodes codes .SNil).codes = codes := by
  induction codes with
  | nil => rfl
  | cons code codes ih =>
    have hcode := h code (by simp)
    rw [String.ofCodes_cons, String.codes_cons, ih fun c hc => h c (by simp [hc]),
      U32.toNat_literal, Nat.mod_eq_of_lt (by omega)]

theorem codes_natShow (n : Nat) : (natShow n).codes = decimalCodes n := by
  rw [natShow_eq, codes_ofCodes (digits_decimalCodes n)]

/-- **`Nat.show` gives the shortest numeral.** -/
theorem shortest_natShow (n : Nat) : Shortest (natShow n) n where
  nonempty := fun h => decimalCodes_ne_nil n (by rw [← codes_natShow, h, String.codes_nil])
  digits := codes_natShow n ▸ digits_decimalCodes n
  value := by rw [codes_natShow, decimalFrom_decimalCodes]
  leading := by
    rw [codes_natShow]
    exact leading_decimalCodes n

/-! ## 5. Reading -/

/-- The word of a character less forty-eight is a digit only for the ten digit characters. -/
theorem isLt_ten (x : U32) :
    U32.isLt (U32.sub x (U32.literal 48)) (U32.literal 10) =
      decide (48 ≤ x.toNat ∧ x.toNat ≤ 57) := by
  have hx := x.toNat_lt
  rw [u32IsLt_eq, U32.toNat_sub, U32.toNat_literal, U32.toNat_literal]
  refine decide_eq_decide.mpr ?_
  omega

theorem toNat_digit {x : U32} (hx : 48 ≤ x.toNat ∧ x.toNat ≤ 57) :
    (U32.sub x (U32.literal 48)).toNat = x.toNat - 48 := by
  rw [U32.toNat_sub, U32.toNat_literal]
  omega

/-- `Nat.read.max`, in numbers. -/
def natReadMax : Nat := 2 ^ 48 - 1

/-- The text of fourteen digits is the bound on the accumulator. -/
theorem natReadBound_eq (acc : Nat) {d : U32} (hd : d.toNat < 10) :
    natReadBound acc d = decide (10 * acc + d.toNat ≤ natReadMax) := by
  have hshort := shortest_natShow acc
  have htext : natReadText.codes = [50, 56, 49, 52, 55, 52, 57, 55, 54, 55, 49, 48, 54, 53] :=
    codes_ofCodes (by decide)
  have hvalue := hshort.value
  have hupper := decimalFrom_lt hshort.digits
  rw [hvalue] at hupper
  rw [natReadBound, ← String.length_codes, natReadMax]
  rcases natCmp_cases (natShow acc).codes.length 14 with ⟨h, hcmp⟩ | ⟨h, hcmp⟩ | ⟨h, hcmp⟩
  · have hpow : 10 ^ (natShow acc).codes.length ≤ 10 ^ 13 :=
      Nat.pow_le_pow_right (by decide) (by omega)
    rw [hcmp, natReadBoundText, decide_eq_true (by omega)]
  · have horder := order_eq_natCmp (t := natReadText) (by rw [htext, h]; rfl) hshort.digits
      (by rw [htext]; decide)
    have hbound : decimalFrom 0 natReadText.codes = 28147497671065 := by rw [htext]; rfl
    rw [hcmp, natReadBoundText, horder, hbound, hvalue]
    rcases natCmp_cases acc 28147497671065 with ⟨hlt, hrest⟩ | ⟨heq, hrest⟩ | ⟨hgt, hrest⟩
    · rw [hrest, natReadBoundDigit, decide_eq_true (by omega)]
    · rw [hrest, natReadBoundDigit, u32IsLe_eq, U32.toNat_literal]
      refine decide_eq_decide.mpr ?_
      omega
    · rw [hrest, natReadBoundDigit, decide_eq_false (by omega)]
  · have hlower : 10 ^ 14 ≤ acc := by
      cases hcodes : (natShow acc).codes with
      | nil => rw [hcodes] at h; simp at h
      | cons code codes =>
        have hhead : code ≠ 48 := fun hc => by
          have hone := hshort.leading (by rw [hcodes, hc]; rfl)
          rw [hone] at h
          simp at h
        have hcode := hshort.digits code (by rw [hcodes]; simp)
        rw [hcodes, List.length_cons] at h
        rw [hcodes, decimalFrom_cons, decimalFrom_eq] at hvalue
        have hpow : 10 ^ 14 ≤ 10 ^ codes.length := Nat.pow_le_pow_right (by decide) (by omega)
        have hmul : 1 * 10 ^ codes.length ≤ (10 * 0 + (code - 48)) * 10 ^ codes.length :=
          Nat.mul_le_mul_right _ (by omega)
        omega
    rw [hcmp, natReadBoundText, decide_eq_false (by omega)]

/-- Reading after a number within the bound. -/
theorem natReadGo_eq (s : String) {acc : Nat} (hacc : acc ≤ natReadMax) (n : Nat) :
    natReadGo s acc = some n ↔
      Digits s.codes ∧ decimalFrom acc s.codes = n ∧ n ≤ natReadMax := by
  induction s generalizing acc with
  | SNil =>
    rw [natReadGo, String.codes_nil, decimalFrom_nil, Option.some.injEq]
    constructor
    · rintro rfl
      exact ⟨fun c hc => absurd hc List.not_mem_nil, rfl, hacc⟩
    · exact fun h => h.2.1
  | SCon c t ih =>
    obtain ⟨x⟩ := c
    rw [natReadGo, String.codes_cons, decimalFrom_cons]
    simp only [isLt_ten, natMul_eq]
    have hdigits : Digits (x.toNat :: t.codes) ↔
        (48 ≤ x.toNat ∧ x.toNat ≤ 57) ∧ Digits t.codes := List.forall_mem_cons
    by_cases hx : 48 ≤ x.toNat ∧ x.toNat ≤ 57
    · have hd := toNat_digit hx
      rw [decide_eq_true hx, Bool.true_and, natReadBound_eq acc (by omega), hd,
        Nat.mul_comm acc 10, hdigits]
      by_cases hle : 10 * acc + (x.toNat - 48) ≤ natReadMax
      · rw [decide_eq_true hle]
        simp only
        rw [ih hle]
        exact ⟨fun h => ⟨⟨hx, h.1⟩, h.2⟩, fun h => ⟨h.1.2, h.2⟩⟩
      · rw [decide_eq_false hle]
        simp only [reduceCtorEq, false_iff]
        rintro ⟨-, hvalue, hn⟩
        have hgrow := le_decimalFrom (10 * acc + (x.toNat - 48)) t.codes
        omega
    · rw [decide_eq_false hx, Bool.false_and, hdigits]
      simp only [reduceCtorEq, false_iff]
      exact fun h => hx h.1.1

/-- A number is read from its numeral, up to the limit of the reader. -/
theorem natRead_eq (s : String) (n : Nat) :
    natRead s = some n ↔ Numeral s n ∧ n ≤ natReadMax := by
  cases s with
  | SNil =>
    rw [natRead]
    simp only [reduceCtorEq, false_iff]
    exact fun h => h.1.nonempty rfl
  | SCon c t =>
    rw [natRead, natReadGo_eq _ (Nat.zero_le _)]
    constructor
    · rintro ⟨hdigits, hvalue, hn⟩
      exact ⟨⟨nofun, hdigits, hvalue⟩, hn⟩
    · rintro ⟨hnumeral, hn⟩
      exact ⟨hnumeral.digits, hnumeral.value, hn⟩

/-- The bound is that of a word. -/
theorem u32ReadBound_eq (acc : U32) {d : U32} (hd : d.toNat < 10) :
    u32ReadBound acc d = decide (10 * acc.toNat + d.toNat < 2 ^ 32) := by
  have hten : d.toNat < (U32.literal 10).toNat := hd
  rw [u32ReadBound, u32IsLt_eq, decide_eq_true hten, Bool.true_and, u32Cmp_eq, U32.toNat_literal]
  rcases natCmp_cases acc.toNat (429496729 % 2 ^ 32) with ⟨h, hcmp⟩ | ⟨h, hcmp⟩ | ⟨h, hcmp⟩
  · rw [hcmp, u32ReadBoundDigit, decide_eq_true (by omega)]
  · rw [hcmp, u32ReadBoundDigit, u32IsLe_eq, U32.toNat_literal]
    refine decide_eq_decide.mpr ?_
    omega
  · rw [hcmp, u32ReadBoundDigit, decide_eq_false (by omega)]

theorem u32ReadStep_eq {acc d : U32} (h : 10 * acc.toNat + d.toNat < 2 ^ 32) :
    (U32.add (u32ReadTimesTen acc) d).toNat = 10 * acc.toNat + d.toNat := by
  rw [u32ReadTimesTen, U32.toNat_add, U32.toNat_add, U32.toNat_shl, U32.toNat_shl, U32.toNat_shl,
    U32.toNat_shl]
  omega

/-- **The reader goes through the digits**, as long as the word has room. -/
theorem u32ReadGo_eq (s : String) (acc v : U32) :
    u32ReadGo s acc = some v ↔ Digits s.codes ∧ decimalFrom acc.toNat s.codes = v.toNat := by
  induction s generalizing acc with
  | SNil =>
    rw [u32ReadGo, String.codes_nil, decimalFrom_nil, Option.some.injEq]
    constructor
    · rintro rfl
      exact ⟨fun c hc => absurd hc List.not_mem_nil, rfl⟩
    · exact fun h => U32.toNat_inj h.2
  | SCon c t ih =>
    obtain ⟨x⟩ := c
    rw [u32ReadGo, String.codes_cons, decimalFrom_cons]
    have hdigits : Digits (x.toNat :: t.codes) ↔
        (48 ≤ x.toNat ∧ x.toNat ≤ 57) ∧ Digits t.codes := List.forall_mem_cons
    have hten := isLt_ten x
    by_cases hx : 48 ≤ x.toNat ∧ x.toNat ≤ 57
    · have hd := toNat_digit hx
      simp only
      rw [u32ReadBound_eq acc (by omega), hd, hdigits]
      by_cases hlt : 10 * acc.toNat + (x.toNat - 48) < 2 ^ 32
      · rw [decide_eq_true hlt]
        simp only
        rw [ih, u32ReadStep_eq (by rw [hd]; exact hlt), hd]
        exact ⟨fun h => ⟨⟨hx, h.1⟩, h.2⟩, fun h => ⟨h.1.2, h.2⟩⟩
      · rw [decide_eq_false hlt]
        simp only [reduceCtorEq, false_iff]
        rintro ⟨-, hvalue⟩
        have hgrow := le_decimalFrom (10 * acc.toNat + (x.toNat - 48)) t.codes
        have hv := v.toNat_lt
        omega
    · rw [decide_eq_false hx] at hten
      simp only [u32ReadBound, hten, Bool.false_and]
      rw [hdigits]
      simp only [reduceCtorEq, false_iff]
      exact fun h => hx h.1.1

/-- A word is read from its numeral. -/
theorem u32Read_eq (s : String) (v : U32) : u32Read s = some v ↔ Numeral s v.toNat := by
  cases s with
  | SNil =>
    rw [u32Read]
    simp only [reduceCtorEq, false_iff]
    exact fun h => h.nonempty rfl
  | SCon c t =>
    rw [u32Read, u32ReadGo_eq, U32.toNat_literal]
    constructor
    · rintro ⟨hdigits, hvalue⟩
      exact ⟨nofun, hdigits, hvalue⟩
    · exact fun h => ⟨h.digits, h.value⟩

/-- Showing gives shortest numerals, reading accepts the numerals in its range and gives their
values, and so reading what was shown gives the number back. -/
theorem decimal_text :
    (∀ x : U32, Shortest (u32Show x) x.toNat) ∧
      (∀ s v, u32Read s = some v ↔ Numeral s v.toNat) ∧
      (∀ n, Shortest (natShow n) n) ∧
      (∀ s n, natRead s = some n ↔ Numeral s n ∧ n ≤ 2 ^ 48 - 1) ∧
      (∀ x, u32Read (u32Show x) = some x) ∧
      ∀ n, n ≤ 2 ^ 48 - 1 → natRead (natShow n) = some n := by
  have hshow : ∀ x : U32, Shortest (u32Show x) x.toNat := fun x => by
    rw [u32Show_eq]
    exact shortest_natShow x.toNat
  refine ⟨hshow, u32Read_eq, shortest_natShow, natRead_eq, fun x => ?_, fun n hn => ?_⟩
  · exact (u32Read_eq _ x).mpr (hshow x).toNumeral
  · exact (natRead_eq _ n).mpr ⟨(shortest_natShow n).toNumeral, hn⟩

/-- The largest number that is read. -/
theorem decimal_text_largest : natRead (natShow (2 ^ 48 - 1)) = some (2 ^ 48 - 1) :=
  decimal_text.2.2.2.2.2 (2 ^ 48 - 1) (Nat.le_refl _)

end TeamyBend.Base
