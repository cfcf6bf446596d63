/-
# An interval cut into blocks

A list of blocks tiles an interval if each begins where the one before it ends.  Then every cell of
the interval is in exactly one block, and the sizes add up to the length of the interval.
-/
import Mathlib.Algebra.Order.Ring.Nat
import Mathlib.Data.List.Pairwise

namespace TeamyBend.Library

variable {β : Type} {start size : β → Nat} {lo mid hi : Nat} {b c : β} {bs : List β}

/-- The blocks, in order of address, fill what is between `lo` and `hi`. -/
def Tiles (start size : β → Nat) : Nat → List β → Nat → Prop
  | lo, [], hi => lo = hi
  | lo, b :: bs, hi => start b = lo ∧ Tiles start size (lo + size b) bs hi

namespace Tiles

theorem le (h : Tiles start size lo bs hi) : lo ≤ hi := by
  induction bs generalizing lo with
  | nil => exact Nat.le_of_eq h
  | cons b bs ih => exact Nat.le_trans (Nat.le_add_right _ _) (ih h.2)

/-- A block is added at the end. -/
theorem concat (h : Tiles start size lo bs hi) (hb : start b = hi) :
    Tiles start size lo (bs ++ [b]) (hi + size b) := by
  induction bs generalizing lo with
  | nil =>
    cases (show lo = hi from h)
    exact ⟨hb, rfl⟩
  | cons c bs ih => exact ⟨h.1, ih h.2⟩

theorem within (h : Tiles start size lo bs hi) (hmem : b ∈ bs) :
    lo ≤ start b ∧ start b + size b ≤ hi := by
  induction bs generalizing lo with
  | nil => cases hmem
  | cons c bs ih =>
    obtain ⟨hstart, hrest⟩ := h
    rcases List.mem_cons.1 hmem with rfl | hmem
    · have := hrest.le
      omega
    · have := ih hrest hmem
      omega

theorem covers (h : Tiles start size lo bs hi) {x : Nat} (hlo : lo ≤ x) (hhi : x < hi) :
    ∃ b ∈ bs, start b ≤ x ∧ x < start b + size b := by
  induction bs generalizing lo with
  | nil =>
    cases (show lo = hi from h)
    omega
  | cons b bs ih =>
    obtain ⟨hstart, hrest⟩ := h
    by_cases hx : x < lo + size b
    · exact ⟨b, List.mem_cons_self, by omega, by omega⟩
    · obtain ⟨c, hmem, hc⟩ := ih hrest (by omega)
      exact ⟨c, List.mem_cons_of_mem _ hmem, hc⟩

/-- Each block ends before those after it. -/
theorem pairwise (h : Tiles start size lo bs hi) :
    bs.Pairwise fun b c => start b + size b ≤ start c := by
  induction bs generalizing lo with
  | nil => exact .nil
  | cons b bs ih =>
    obtain ⟨hstart, hrest⟩ := h
    refine .cons (fun c hmem => ?_) (ih hrest)
    have := (hrest.within hmem).1
    omega

/-- A cell is in one block only. -/
theorem unique (h : Tiles start size lo bs hi) (hb : b ∈ bs) (hc : c ∈ bs) {x : Nat}
    (hxb : start b ≤ x ∧ x < start b + size b) (hxc : start c ≤ x ∧ x < start c + size c) :
    b = c := by
  by_contra hne
  let apart (b c : β) : Prop := start b + size b ≤ start c ∨ start c + size c ≤ start b
  have hsymm : Std.Symm apart := ⟨fun _ _ => Or.symm⟩
  have hapart : bs.Pairwise apart := h.pairwise.imp Or.inl
  rcases hapart.forall hb hc hne with hle | hle <;> omega

theorem nodup (h : Tiles start size lo bs hi) (hpos : ∀ b ∈ bs, 0 < size b) : bs.Nodup := by
  refine h.pairwise.imp_of_mem fun hb hc hle heq => ?_
  subst heq
  have := hpos _ hb
  omega

theorem sum_size (h : Tiles start size lo bs hi) : lo + (bs.map size).sum = hi := by
  induction bs generalizing lo with
  | nil => exact h
  | cons b bs ih =>
    have := ih h.2
    rw [List.map_cons, List.sum_cons]
    omega

end Tiles

/-! ## Selections of blocks -/

variable {p q : β → Bool}

/-- A block that was not selected is. -/
theorem filter_change [DecidableEq β] (hnodup : bs.Nodup) (hb : b ∈ bs) (hp : p b = true)
    (hq : q b = false) (hsame : ∀ c ∈ bs, c ≠ b → p c = q c) :
    (bs.filter p).Perm (b :: bs.filter q) := by
  have hperm := List.perm_cons_erase hb
  have hrest : (bs.erase b).filter p = (bs.erase b).filter q := by
    refine List.filter_congr fun c hc => ?_
    obtain ⟨hne, hmem⟩ := (hnodup.mem_erase_iff).1 hc
    exact hsame c hmem hne
  have hfirst := hperm.filter p
  have hsecond := hperm.filter q
  rw [List.filter_cons_of_pos hp, hrest] at hfirst
  rw [List.filter_cons_of_neg (by simp [hq])] at hsecond
  exact hfirst.trans (hsecond.symm.cons b)

/-- Two sums over blocks differ by what one block has of each. -/
theorem sum_map_change [DecidableEq β] {f g : β → Nat} (hnodup : bs.Nodup) (hb : b ∈ bs)
    (hsame : ∀ c ∈ bs, c ≠ b → f c = g c) : (bs.map f).sum + g b = (bs.map g).sum + f b := by
  have hrest : (bs.erase b).map f = (bs.erase b).map g := by
    refine List.map_congr_left fun c hc => ?_
    obtain ⟨hne, hmem⟩ := (hnodup.mem_erase_iff).1 hc
    exact hsame c hmem hne
  have hf := ((List.perm_cons_erase hb).map f).sum_nat
  have hg := ((List.perm_cons_erase hb).map g).sum_nat
  simp only [List.map_cons, List.sum_cons] at hf hg
  rw [hrest] at hf
  omega

/-- What two selections without a common block add up to. -/
theorem sum_filter_le (f : β → Nat) (happart : ∀ b ∈ bs, p b = true → q b = false) :
    ((bs.filter p).map f).sum + ((bs.filter q).map f).sum ≤ (bs.map f).sum := by
  induction bs with
  | nil => simp
  | cons b bs ih =>
    have hrest := ih fun c hc => happart c (List.mem_cons_of_mem _ hc)
    have hb := happart b List.mem_cons_self
    rw [List.filter_cons, List.filter_cons, List.map_cons, List.sum_cons]
    cases hp : p b with
    | true =>
      rw [hb hp]
      simp only [if_true, Bool.false_eq_true, if_false, List.map_cons, List.sum_cons]
      omega
    | false =>
      cases q b <;>
        simp only [Bool.false_eq_true, if_true, if_false, List.map_cons, List.sum_cons] <;> omega

end TeamyBend.Library
