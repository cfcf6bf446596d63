/-
# Strings of the bundled Base and the bit positions of their keys

`String.cmp` and `Char.cmp` give their arguments back beside the answer, because Base spends
each string once.  `Map.bit` reads a string as an endless run of bits, 33 for each character:
a presence bit, then the code from its highest bit down.  Past the end every bit is clear, so
a proper beginning of a string differs from it first at a presence bit.

`Map.diff` computes the first position where two strings differ (`differ_diff`), and
`String.order` agrees with the bit there (`order_eq_lt_iff`).  These two facts are all that the
tree above them needs.
-/
import TeamyBend.Base.Word
import TeamyBend.Library.CritBit

namespace TeamyBend.Base

open CritBit (Differ)

/-! ## 1. Characters and strings -/

/-- `type Char`: any code is allowed. -/
structure Char where
  code : U32
  deriving Repr, DecidableEq

/-- `type String`. -/
inductive String where
  | SNil
  | SCon (head : Char) (tail : String)
  deriving Repr, DecidableEq

/-- `Char.cmp`. -/
def Char.cmp (a b : Char) : (Char × Char) × Cmp :=
  ((⟨a.code⟩, ⟨b.code⟩), U32.cmp a.code b.code)

namespace String

/-- `String.cmp.rec`. -/
def cmpRec (h1b h2b : Char) (rr : (String × String) × Cmp) : (String × String) × Cmp :=
  match rr with
  | ((t1b, t2b), r) => ((SCon h1b t1b, SCon h2b t2b), r)

/-- `String.cmp`. -/
def cmp : String → String → (String × String) × Cmp
  | SNil, SNil => ((SNil, SNil), .EQ)
  | SNil, SCon h t => ((SNil, SCon h t), .LT)
  | SCon h t, SNil => ((SCon h t, SNil), .GT)
  | SCon h1 t1, SCon h2 t2 =>
    match Char.cmp h1 h2 with
    | ((h1b, h2b), .LT) => ((SCon h1b t1, SCon h2b t2), .LT)
    | ((h1b, h2b), .EQ) => cmpRec h1b h2b (cmp t1 t2)
    | ((h1b, h2b), .GT) => ((SCon h1b t1, SCon h2b t2), .GT)

/-- `String.order`. -/
def order (a b : String) : Cmp := (cmp a b).2

@[simp] theorem cmp_fst (a b : String) : (cmp a b).1 = (a, b) := by
  fun_induction cmp a b with
  | case1 | case2 | case3 => rfl
  | case4 h1 t1 h2 t2 h1b h2b hc | case6 h1 t1 h2 t2 h1b h2b hc =>
    simp only [Char.cmp, Prod.mk.injEq] at hc
    simp [← hc.1.1, ← hc.1.2]
  | case5 h1 t1 h2 t2 h1b h2b hc ih =>
    simp only [Char.cmp, Prod.mk.injEq] at hc
    simp [cmpRec, ih, ← hc.1.1, ← hc.1.2]

theorem cmp_eq (a b : String) : cmp a b = ((a, b), order a b) :=
  Prod.ext (cmp_fst a b) rfl

theorem order_cons (h1 h2 : Char) (t1 t2 : String) :
    order (SCon h1 t1) (SCon h2 t2) =
      match U32.cmp h1.code h2.code with
      | .LT => .LT
      | .EQ => order t1 t2
      | .GT => .GT := by
  rw [order, cmp]
  cases hc : U32.cmp h1.code h2.code <;> simp [Char.cmp, hc, cmpRec, order]

end String

/-! ## 2. The bit of a key at a position -/

namespace Map

open TeamyBend.Base.String (SNil SCon)

/-- `Map.bit.u`. -/
def bitU (x : U32) (k : Nat) : Bool :=
  U32.isNe (U32.and (U32.shrn x k) (U32.literal 1)) (U32.literal 0)

/-- `Map.bit.chr`. -/
def bitChr : Char → Nat → Char × Bool
  | ⟨x⟩, 0 => (⟨x⟩, true)
  | ⟨x⟩, b + 1 => (⟨x⟩, bitU x (natSub 31 b))

/-- `Map.bit.go.chr`. -/
def bitGoChr (t : String) (r : Char × Bool) : String × Bool :=
  match r with
  | (c2, b) => (SCon c2 t, b)

/-- `Map.bit.go.rec`. -/
def bitGoRec (c : Char) (r : String × Bool) : String × Bool :=
  match r with
  | (t2, b) => (SCon c t2, b)

/-- `Map.bit.go`. -/
def bitGo : String → Nat → Nat → String × Bool
  | SNil, _, _ => (SNil, false)
  | SCon c t, 0, off => bitGoChr t (bitChr c off)
  | SCon c t, j + 1, off => bitGoRec c (bitGo t j off)

/-- `Map.bit.at`. -/
def bitAt (key : String) (co : Nat × Nat) : String × Bool :=
  match co with
  | (ci, off) => bitGo key ci off

/-- `Map.bit`. -/
def bit (key : String) (pos : Nat) : String × Bool := bitAt key (natDivmod pos 33)

/-- The bit that `Map.bit` reads beside the key. -/
def keyBit (key : String) (pos : Nat) : Bool := (bit key pos).2

@[simp] theorem bitU_eq (x : U32) (k : Nat) : bitU x k = x.get k := by
  have hbits : ∀ i, (U32.and (U32.shrn x k) (U32.literal 1)).get i =
      (x.get (i + k) && decide (i = 0)) := fun i => by simp
  have hzero : U32.isEq (U32.and (U32.shrn x k) (U32.literal 1)) (U32.literal 0) = true ↔
      x.get k = false := by
    refine (U32.isZero_iff _).trans ⟨fun h => ?_, fun h i => ?_⟩
    · simpa [hbits] using h 0
    · rw [hbits]
      by_cases hi : i = 0
      · subst hi
        simp [h]
      · simp [hi]
  rw [bitU, U32.isNe, ← U32.isEq]
  cases hx : x.get k <;>
    cases hz : U32.isEq (U32.and (U32.shrn x k) (U32.literal 1)) (U32.literal 0) <;>
      simp_all

@[simp] theorem bitChr_fst (c : Char) (off : Nat) : (bitChr c off).1 = c := by
  cases off <;> rfl

@[simp] theorem bitGo_fst (key : String) (ci off : Nat) : (bitGo key ci off).1 = key := by
  fun_induction bitGo key ci off <;> simp_all [bitGoChr, bitGoRec]

@[simp] theorem bit_fst (key : String) (pos : Nat) : (bit key pos).1 = key := bitGo_fst ..

theorem bit_eq (key : String) (pos : Nat) : bit key pos = (key, keyBit key pos) :=
  Prod.ext (bit_fst key pos) rfl

theorem keyBit_eq (key : String) (pos : Nat) :
    keyBit key pos = (bitGo key (pos / 33) (pos % 33)).2 := by
  rw [keyBit, bit, natDivmod_eq _ _ (by decide), bitAt]

@[simp] theorem keyBit_nil (pos : Nat) : keyBit SNil pos = false := by
  rw [keyBit_eq, bitGo]

theorem keyBit_cons_zero (c : Char) (t : String) : keyBit (SCon c t) 0 = true := by
  rw [keyBit_eq]
  rfl

theorem keyBit_cons_succ (c : Char) (t : String) {b : Nat} (hb : b < 32) :
    keyBit (SCon c t) (b + 1) = c.code.get (31 - b) := by
  have h1 : (b + 1) / 33 = 0 := Nat.div_eq_of_lt (by omega)
  have h2 : (b + 1) % 33 = b + 1 := Nat.mod_eq_of_lt (by omega)
  rw [keyBit_eq, h1, h2, bitGo, bitGoChr, bitChr, bitU_eq, natSub_eq]

theorem keyBit_cons_add (c : Char) (t : String) (pos : Nat) :
    keyBit (SCon c t) (33 + pos) = keyBit t pos := by
  have h1 : (33 + pos) / 33 = pos / 33 + 1 := by omega
  have h2 : (33 + pos) % 33 = pos % 33 := by omega
  rw [keyBit_eq, h1, h2, bitGo, bitGoRec, keyBit_eq]

/-! ## 3. The first differing position -/

/-- `Map.msb.u`. -/
def msbU : Nat → U32 → Nat
  | 0, _ => 0
  | p + 1, x =>
    match U32.isZero x with
    | true => 0
    | false => 1 + msbU p (U32.shr x)

/-- `Map.diff.chr`. -/
def diffChr (x : U32) : Nat := natSub 33 (msbU 32 x)

/-- `Map.diff.step`. -/
def diffStep (x y : Char) : Nat × Bool :=
  (diffChr (U32.xor x.code y.code), U32.isEq x.code y.code)

/-- `Map.diff`. -/
def diff : String → String → Nat
  | SNil, SNil => 0
  | SNil, SCon _ _ => 0
  | SCon _ _, SNil => 0
  | SCon x xt, SCon y yt =>
    match diffStep x y with
    | (_, true) => 33 + diff xt yt
    | (r, false) => r

/-- The count of significant bits is one past the highest set bit. -/
theorem msbU_eq {x : U32} {i : Nat} (hi : x.get i = true) (habove : ∀ j, i < j → x.get j = false)
    {n : Nat} (hn : i < n) : msbU n x = i + 1 := by
  induction n generalizing x i with
  | zero => omega
  | succ p ih =>
    have hx : U32.isZero x = false := by
      rw [← Bool.not_eq_true, U32.isZero_iff]
      exact fun h => by simp [h i] at hi
    rw [msbU, hx]
    cases i with
    | zero =>
      have hshr : ∀ j, (U32.shr x).get j = false := fun j => by simp [habove]
      have : msbU p (U32.shr x) = 0 := by
        cases p with
        | zero => rfl
        | succ p => rw [msbU, (U32.isZero_iff _).mpr hshr]
      rw [this]
    | succ i =>
      have hshr : msbU p (U32.shr x) = i + 1 :=
        ih (by simpa using hi) (fun j hj => by simpa using habove (j + 1) (by omega)) (by omega)
      rw [hshr]
      exact Nat.add_comm ..

/-- Where two characters differ: the highest differing bit `i` sits at offset `32 - i`. -/
theorem diffChr_eq {x y : U32} {i : Nat} (h : Word.TopDiffer x.data y.data i) :
    diffChr (U32.xor x y) = 32 - i := by
  have hi := h.lt
  have hbit : (U32.xor x y).get i = true := by
    have hne : x.get i ≠ y.get i := h.here
    simpa using hne
  have habove : ∀ j, i < j → (U32.xor x y).get j = false := fun j hj => by
    have heq : x.get j = y.get j := h.above j hj
    simp [heq]
  rw [diffChr, msbU_eq hbit habove hi, natSub_eq]
  omega

/-- **`Map.diff` is the first differing position** of two distinct keys. -/
theorem differ_diff {a b : String} (h : a ≠ b) : Differ keyBit a b (diff a b) := by
  induction a generalizing b with
  | SNil =>
    cases b with
    | SNil => exact absurd rfl h
    | SCon y yt => exact ⟨by simp [diff], by simp [diff, keyBit_cons_zero]⟩
  | SCon x xt ih =>
    cases b with
    | SNil => exact ⟨by simp [diff], by simp [diff, keyBit_cons_zero]⟩
    | SCon y yt =>
      by_cases hxy : x = y
      · subst hxy
        have hd := ih fun ht => h (by rw [ht])
        have hdiff : diff (SCon x xt) (SCon x yt) = 33 + diff xt yt := by
          simp [diff, diffStep, (U32.isEq_iff x.code x.code).mpr rfl]
        rw [hdiff]
        refine ⟨fun q hq => ?_, by simpa only [keyBit_cons_add] using hd.here⟩
        rcases Nat.lt_or_ge q 33 with hq33 | hq33
        · cases q with
          | zero => rw [keyBit_cons_zero, keyBit_cons_zero]
          | succ b => rw [keyBit_cons_succ _ _ (by omega), keyBit_cons_succ _ _ (by omega)]
        · obtain ⟨r, rfl⟩ := Nat.exists_eq_add_of_le hq33
          rw [keyBit_cons_add, keyBit_cons_add]
          exact hd.before r (by omega)
      · have hdata : x.code.data ≠ y.code.data := fun hd => hxy (by
          cases x with | mk u => cases y with | mk v => cases u; cases v; simp_all)
        obtain ⟨i, hi⟩ := Word.exists_topDiffer hdata
        have hlt := hi.lt
        have hne : U32.isEq x.code y.code = false := by
          rw [← Bool.not_eq_true, U32.isEq_iff]
          exact fun hd => hdata (by rw [hd])
        have hdiff : diff (SCon x xt) (SCon y yt) = (31 - i) + 1 := by
          simp only [diff, diffStep, hne, diffChr_eq hi]
          omega
        have hpos : 31 - (31 - i) = i := by omega
        rw [hdiff]
        refine ⟨fun q hq => ?_, ?_⟩
        · cases q with
          | zero => rw [keyBit_cons_zero, keyBit_cons_zero]
          | succ b =>
            rw [keyBit_cons_succ _ _ (by omega), keyBit_cons_succ _ _ (by omega)]
            exact hi.above _ (by omega)
        · rw [keyBit_cons_succ _ _ (by omega), keyBit_cons_succ _ _ (by omega), hpos]
          exact hi.here

end Map

/-! ## 4. The order of strings follows the first differing bit -/

namespace String

open Map

theorem order_eq_iff (a b : String) : order a b = .EQ ↔ a = b := by
  induction a generalizing b with
  | SNil => cases b <;> simp [order, cmp]
  | SCon x xt ih =>
    cases b with
    | SNil => simp [order, cmp]
    | SCon y yt =>
      have hchar : U32.cmp x.code y.code = .EQ ↔ x = y := by
        cases x with | mk u => cases y with | mk v =>
          cases u; cases v; simp [U32.cmp, Word.cmp_eq_iff]
      rw [order_cons, SCon.injEq, ← ih yt, ← hchar]
      cases U32.cmp x.code y.code <;> simp

theorem order_eq_lt_iff {a b : String} {p : Nat} (h : Differ keyBit a b p) :
    order a b = .LT ↔ keyBit a p = false := by
  have hab : a ≠ b := fun he => h.here (by rw [he])
  obtain rfl := h.unique (differ_diff hab)
  induction a generalizing b with
  | SNil =>
    cases b with
    | SNil => exact absurd rfl hab
    | SCon y yt => simp [order, cmp]
  | SCon x xt ih =>
    cases b with
    | SNil => simp [order, cmp, diff, keyBit_cons_zero]
    | SCon y yt =>
      rw [order_cons]
      by_cases hdata : x.code.data = y.code.data
      · have hxy : x.code = y.code := congrArg U32.mk hdata
        have hcmp : U32.cmp x.code y.code = .EQ := by
          rw [U32.cmp, hdata]
          exact (Word.cmp_eq_iff _ _).mpr rfl
        have ht : xt ≠ yt := fun ht => hab (by
          cases x with | mk u => cases y with | mk v => simp_all)
        have hdiff : diff (SCon x xt) (SCon y yt) = 33 + diff xt yt := by
          simp [diff, diffStep, (U32.isEq_iff x.code y.code).mpr hxy]
        rw [hcmp, hdiff, keyBit_cons_add]
        exact ih ht (differ_diff ht)
      · obtain ⟨i, hi⟩ := Word.exists_topDiffer hdata
        have hlt := hi.lt
        have hne : U32.isEq x.code y.code = false := by
          rw [← Bool.not_eq_true, U32.isEq_iff]
          exact fun hd => hdata (by rw [hd])
        have hcmp : U32.cmp x.code y.code ≠ .EQ := fun he =>
          hdata ((Word.cmp_eq_iff _ _).mp he)
        have hdiff : diff (SCon x xt) (SCon y yt) = (31 - i) + 1 := by
          simp only [diff, diffStep, hne, diffChr_eq hi]
          omega
        have hpos : 31 - (31 - i) = i := by omega
        rw [hdiff, keyBit_cons_succ _ _ (by omega), hpos]
        have hword := Word.cmp_eq_lt_iff hi
        rw [← U32.cmp] at hword
        refine Iff.trans ?_ hword
        cases hc : U32.cmp x.code y.code <;> simp_all

end String

end TeamyBend.Base
