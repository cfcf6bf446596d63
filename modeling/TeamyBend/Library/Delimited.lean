/-
# Texts that show where they end

A writer that puts one text after another loses nothing when each text shows where it ends: two
texts that agree up to whatever follows them say the same.  `Decodes w w' P` is that property of
two texts, with `P` for "they say the same": whatever is written behind them, the wholes are
equal exactly if `P` holds and so are the rests.

The rules build it up along the way a text is written: a symbol both begin with, one text after
another, a list with a symbol behind it that no element begins with, and a name behind the number
of its bytes.
-/
import Mathlib.Data.List.Forall2
import Mathlib.Data.String.Basic

namespace TeamyBend.Library

/-! ## 1. Texts and what they say -/

section Decodes

variable {σ : Type*} {w w' v v' : List σ} {P Q : Prop}

/-- The texts agree, whatever follows, exactly if `P` holds. -/
def Decodes (w w' : List σ) (P : Prop) : Prop :=
  ∀ r r', w ++ r = w' ++ r' ↔ P ∧ r = r'

namespace Decodes

/-- Nothing is said. -/
theorem nil : Decodes ([] : List σ) [] True := fun r r' => by simp

/-- A symbol before both. -/
theorem cons (c : σ) (h : Decodes w w' P) : Decodes (c :: w) (c :: w') P := by
  intro r r'
  simpa using h r r'

/-- One text after another, where what the first says may help to read the second. -/
theorem andThen (hw : Decodes w w' P) (hv : P → Decodes v v' Q) :
    Decodes (w ++ v) (w' ++ v') (P ∧ Q) := by
  intro r r'
  rw [List.append_assoc, List.append_assoc, hw, and_assoc]
  exact and_congr_right fun hP => hv hP r r'

/-- One text after another. -/
theorem append (hw : Decodes w w' P) (hv : Decodes v v' Q) :
    Decodes (w ++ v) (w' ++ v') (P ∧ Q) := hw.andThen fun _ => hv

/-- Another way to say the same. -/
theorem congr (h : Decodes w w' P) (hP : P ↔ Q) : Decodes w w' Q := by
  intro r r'
  rw [h, hP]

/-- One symbol. -/
theorem symbol (a b : σ) : Decodes [a] [b] (a = b) := fun r r' => by simp

/-- Texts that begin with different symbols. -/
theorem clash {a b : σ} (h : a ≠ b) : Decodes (a :: w) (b :: w') False := by
  intro r r'
  simp [h]

/-- Alone they agree exactly if they say the same. -/
theorem whole (h : Decodes w w' P) : w = w' ↔ P := by
  simpa using h [] []

end Decodes

/-- **A list with an end mark** says what its elements say, where no element begins with the
mark. -/
theorem Decodes.list {α β : Type*} {f : α → List σ} {g : β → List σ} {R : α → β → Prop} {c : σ}
    {xs : List α} {ys : List β} (hf : ∀ x ∈ xs, ∃ a l, f x = a :: l ∧ a ≠ c)
    (hg : ∀ y ∈ ys, ∃ a l, g y = a :: l ∧ a ≠ c)
    (h : ∀ x ∈ xs, ∀ y ∈ ys, Decodes (f x) (g y) (R x y)) :
    Decodes (xs.flatMap f ++ [c]) (ys.flatMap g ++ [c]) (List.Forall₂ R xs ys) := by
  induction xs generalizing ys with
  | nil =>
    cases ys with
    | nil => exact (Decodes.nil.cons c).congr (by simp)
    | cons y ys =>
      obtain ⟨a, l, hy, ha⟩ := hg y (by simp)
      simp only [List.flatMap_nil, List.flatMap_cons, hy, List.nil_append, List.cons_append]
      exact (Decodes.clash (Ne.symm ha)).congr (by simp)
  | cons x xs ih =>
    obtain ⟨a, l, hx, ha⟩ := hf x (by simp)
    cases ys with
    | nil =>
      simp only [List.flatMap_nil, List.flatMap_cons, hx, List.nil_append, List.cons_append]
      exact (Decodes.clash ha).congr (by simp)
    | cons y ys =>
      have hrest := ih (fun x hx => hf x (List.mem_cons_of_mem _ hx))
        (fun y hy => hg y (List.mem_cons_of_mem _ hy))
        fun x hx y hy => h x (List.mem_cons_of_mem _ hx) y (List.mem_cons_of_mem _ hy)
      rw [List.flatMap_cons, List.flatMap_cons, List.append_assoc, List.append_assoc]
      exact ((h x (by simp) y (by simp)).append hrest).congr List.forall₂_cons.symm

/-- A list with an end mark, where what an element says is a value. -/
theorem Decodes.listMap {α β τ : Type*} {f : α → List σ} {g : β → List σ} {a : α → τ} {b : β → τ}
    {c : σ} {xs : List α} {ys : List β} (hf : ∀ x ∈ xs, ∃ a l, f x = a :: l ∧ a ≠ c)
    (hg : ∀ y ∈ ys, ∃ a l, g y = a :: l ∧ a ≠ c)
    (h : ∀ x ∈ xs, ∀ y ∈ ys, Decodes (f x) (g y) (a x = b y)) :
    Decodes (xs.flatMap f ++ [c]) (ys.flatMap g ++ [c]) (xs.map a = ys.map b) := by
  refine (Decodes.list hf hg h).congr ?_
  rw [← List.forall₂_map_left_iff (R := fun u y => u = b y), ← List.forall₂_map_right_iff,
    List.forall₂_eq_eq_eq]

/-- Symbols up to a mark that is none of them. -/
theorem Decodes.upTo {c : σ} {ds es : List σ} (hds : c ∉ ds) (hes : c ∉ es) :
    Decodes (ds ++ [c]) (es ++ [c]) (ds = es) := by
  have hfirst : ∀ {l : List σ}, c ∉ l → ∀ d ∈ l, ∃ a m, [d] = a :: m ∧ a ≠ c :=
    fun hl d hd => ⟨d, [], rfl, fun h => hl (h ▸ hd)⟩
  have hlist := Decodes.listMap (a := id) (b := id) (hfirst hds) (hfirst hes)
    fun d _ e _ => Decodes.symbol d e
  simpa using hlist

end Decodes

/-! ## 2. Numbers and names -/

/-- A number in decimal. -/
def decimal (n : Nat) : List Char := Nat.toDigits 10 n

/-- A name behind the number of its bytes. -/
def named (name : String) : List Char := decimal name.utf8ByteSize ++ ':' :: name.toList

theorem isDigit_of_mem_decimal {n : Nat} {c : Char} (h : c ∈ decimal n) : c.isDigit :=
  Nat.isDigit_of_mem_toDigits (by omega) (by omega) h

theorem decimal_injective {m n : Nat} (h : decimal m = decimal n) : m = n := by
  rw [← Nat.ofDigitChars_ten_toDigits (n := m), ← Nat.ofDigitChars_ten_toDigits (n := n)]
  exact congrArg _ h

theorem decimal_inj {m n : Nat} : decimal m = decimal n ↔ m = n :=
  ⟨decimal_injective, congrArg decimal⟩

theorem not_mem_decimal {c : Char} (hc : c.isDigit = false) (n : Nat) : c ∉ decimal n := by
  intro hmem
  simp [isDigit_of_mem_decimal hmem] at hc

/-- Digits with a mark behind them. -/
theorem Decodes.marked {c : Char} (hc : c.isDigit = false) (m n : Nat) :
    Decodes (decimal m ++ [c]) (decimal n ++ [c]) (m = n) :=
  (Decodes.upTo (not_mem_decimal hc m) (not_mem_decimal hc n)).congr decimal_inj

/-- Texts of one size in bytes. -/
theorem Decodes.sized {a b : String} (h : a.utf8ByteSize = b.utf8ByteSize) :
    Decodes a.toList b.toList (a = b) := by
  intro r r'
  constructor
  · intro heq
    have hlen : a.toList.length = b.toList.length → a = b ∧ r = r' := fun hlen => by
      obtain ⟨hab, hr⟩ := List.append_inj heq hlen
      exact ⟨String.toList_inj.mp hab, hr⟩
    have hsize : String.utf8Len a.toList = String.utf8Len b.toList := by
      rw [String.utf8Len_toList, String.utf8Len_toList, h]
    rcases List.append_eq_append_iff.mp heq with ⟨s, hs, -⟩ | ⟨s, hs, -⟩
    · refine hlen ?_
      rw [hs, String.utf8Len_append] at hsize
      have hnil : s = [] := String.utf8Len_eq_zero.mp (by omega)
      rw [hs, hnil, List.append_nil]
    · refine hlen ?_
      rw [hs, String.utf8Len_append] at hsize
      have hnil : s = [] := String.utf8Len_eq_zero.mp (by omega)
      rw [hs, hnil, List.append_nil]
  · rintro ⟨rfl, rfl⟩
    rfl

/-- **A name behind its size** can be read. -/
theorem Decodes.named (a b : String) : Decodes (named a) (named b) (a = b) := by
  have hsize := Decodes.marked (c := ':') rfl a.utf8ByteSize b.utf8ByteSize
  have hname := hsize.andThen Decodes.sized
  simpa [Library.named] using hname.congr (and_iff_right_of_imp (congrArg _))

end TeamyBend.Library
