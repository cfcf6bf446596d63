/-
# Sorting in the bundled Base

`List.sort` is a bottom-up merge sort: every element is a run, a pass merges neighbours, and passes
follow each other until one run is left.  Both recursions run on fuel.  A merge that runs out of
fuel puts what it has not merged behind what it has, and a sort that does concatenates its runs.

Neither happens.  A merge gets the length of the whole list, which is not less than the length of
its two runs; a pass leaves fewer runs than it finds, and there are no more of them than fuel.

`List.append` and `List.concat` are `++` and `flatten`, and `List.reverse.go` is `reverseAux`.
-/
import Mathlib.Data.List.Sort

namespace TeamyBend.Base

variable {α : Type} (le : α → α → Bool)

/-! ## 1. The sort -/

/-- `List.merge.step`. -/
def mergeStep (acc : List α) (x : α) (xt : List α) (y : α) (yt : List α) :
    Bool → List α × List α × List α
  | false => (y :: acc, x :: xt, yt)
  | true => (x :: acc, xt, y :: yt)

/-- `List.merge.go`. -/
def mergeGo : Nat → List α × List α × List α → List α
  | 0, (acc, xs, ys) => acc.reverseAux (xs ++ ys)
  | _ + 1, (acc, [], []) => acc.reverseAux []
  | _ + 1, (acc, [], y :: yt) => acc.reverseAux (y :: yt)
  | _ + 1, (acc, x :: xt, []) => acc.reverseAux (x :: xt)
  | f + 1, (acc, x :: xt, y :: yt) => mergeGo f (mergeStep acc x xt y yt (le x y))

/-- `List.sort.pass`. -/
def sortPass (n : Nat) : List (List α) → List (List α)
  | [] => []
  | [r] => [r]
  | r1 :: r2 :: rest => mergeGo le n ([], r1, r2) :: sortPass n rest

/-- `List.sort.go`. -/
def sortGo (n : Nat) : Nat → List (List α) → List α
  | 0, runs => runs.flatten
  | _ + 1, [] => []
  | _ + 1, [r] => r
  | f + 1, r1 :: r2 :: rest => sortGo n f (sortPass le n (r1 :: r2 :: rest))

/-- `List.sort.runs`. -/
def sortRuns : List α → List (List α)
  | [] => []
  | h :: t => [h] :: sortRuns t

/-- `List.sort`. -/
def sort (xs : List α) : List α := sortGo le xs.length xs.length (sortRuns xs)

/-- The calls of `List.sort.go` while a list is sorted. -/
inductive SortCall (xs : List α) : Nat → List (List α) → Prop where
  | start : SortCall xs xs.length (sortRuns xs)
  | next {f : Nat} {r1 r2 : List α} {rest : List (List α)}
      (h : SortCall xs (f + 1) (r1 :: r2 :: rest)) :
      SortCall xs f (sortPass le xs.length (r1 :: r2 :: rest))

/-- The calls of `List.sort.pass`. -/
inductive PassCall (xs : List α) : List (List α) → Prop where
  | start {f : Nat} {r1 r2 : List α} {rest : List (List α)}
      (h : SortCall le xs (f + 1) (r1 :: r2 :: rest)) : PassCall xs (r1 :: r2 :: rest)
  | next {r1 r2 : List α} {rest : List (List α)} (h : PassCall xs (r1 :: r2 :: rest)) :
      PassCall xs rest

/-- The calls of `List.merge.go`. -/
inductive MergeCall (xs : List α) : Nat → List α × List α × List α → Prop where
  | start {r1 r2 : List α} {rest : List (List α)} (h : PassCall le xs (r1 :: r2 :: rest)) :
      MergeCall xs xs.length ([], r1, r2)
  | next {f : Nat} {acc : List α} {x : α} {xt : List α} {y : α} {yt : List α}
      (h : MergeCall xs (f + 1) (acc, x :: xt, y :: yt)) :
      MergeCall xs f (mergeStep acc x xt y yt (le x y))

/-! ## 2. Nothing is lost -/

variable {le}

/-- A merge loses nothing. -/
theorem mergeGo_perm (fuel : Nat) (acc xs ys : List α) :
    (mergeGo le fuel (acc, xs, ys)).Perm (acc ++ (xs ++ ys)) := by
  induction fuel generalizing acc xs ys with
  | zero =>
    rw [mergeGo, List.reverseAux_eq]
    exact (List.reverse_perm acc).append_right _
  | succ f ih =>
    rcases xs with _ | ⟨x, xt⟩ <;> rcases ys with _ | ⟨y, yt⟩
    · rw [mergeGo, List.reverseAux_eq]
      exact (List.reverse_perm acc).append_right _
    · rw [mergeGo, List.reverseAux_eq]
      exact (List.reverse_perm acc).append_right _
    · rw [mergeGo, List.reverseAux_eq, List.append_nil]
      exact (List.reverse_perm acc).append_right _
    · rw [mergeGo]
      cases le x y with
      | false =>
        refine (ih (y :: acc) (x :: xt) yt).trans ?_
        have hmove : (y :: (acc ++ (x :: xt ++ yt))).Perm (acc ++ (x :: xt ++ y :: yt)) := by
          rw [← List.append_assoc, ← List.append_assoc]
          exact List.perm_middle.symm
        exact hmove
      | true => exact (ih (x :: acc) xt (y :: yt)).trans List.perm_middle.symm

theorem sortPass_perm {n : Nat} {runs : List (List α)} :
    (sortPass le n runs).flatten.Perm runs.flatten := by
  fun_induction sortPass le n runs with
  | case1 => exact .refl _
  | case2 r => exact .refl _
  | case3 r1 r2 rest ih =>
    rw [List.flatten_cons, List.flatten_cons, List.flatten_cons, ← List.append_assoc]
    exact (mergeGo_perm n [] r1 r2).append ih

theorem sortGo_perm (n fuel : Nat) (runs : List (List α)) :
    (sortGo le n fuel runs).Perm runs.flatten := by
  induction fuel generalizing runs with
  | zero => exact .refl _
  | succ f ih =>
    rcases runs with _ | ⟨r1, _ | ⟨r2, rest⟩⟩
    · exact .refl _
    · simp [sortGo]
    · rw [sortGo]
      exact (ih _).trans sortPass_perm

@[simp] theorem flatten_sortRuns (xs : List α) : (sortRuns xs).flatten = xs := by
  induction xs with
  | nil => rfl
  | cons h t ih => simp [sortRuns, ih]

@[simp] theorem length_sortRuns (xs : List α) : (sortRuns xs).length = xs.length := by
  induction xs with
  | nil => rfl
  | cons h t ih => simp [sortRuns, ih]

theorem sort_perm (xs : List α) : (sort le xs).Perm xs := by
  have hperm : (sort le xs).Perm (sortRuns xs).flatten := sortGo_perm xs.length xs.length _
  rwa [flatten_sortRuns] at hperm

/-! ## 3. The fuel is enough -/

theorem length_sortPass {n : Nat} {runs : List (List α)} :
    (sortPass le n runs).length = (runs.length + 1) / 2 := by
  fun_induction sortPass le n runs with
  | case1 => simp
  | case2 r => simp
  | case3 r1 r2 rest ih =>
    simp only [List.length_cons, ih]
    omega

/-- There are no more runs than fuel, and together they are as long as the list. -/
theorem SortCall.bound {xs : List α} {fuel : Nat} {runs : List (List α)}
    (h : SortCall le xs fuel runs) :
    runs.length ≤ fuel ∧ runs.flatten.length = xs.length := by
  induction h with
  | start => simp
  | @next f r1 r2 rest _ ih =>
    refine ⟨?_, sortPass_perm.length_eq.trans ih.2⟩
    have hruns := ih.1
    simp only [length_sortPass, List.length_cons] at hruns ⊢
    omega

theorem PassCall.bound {xs : List α} {runs : List (List α)} (h : PassCall le xs runs) :
    runs.flatten.length ≤ xs.length := by
  induction h with
  | start h => exact h.bound.2.le
  | next _ ih =>
    simp only [List.flatten_cons, List.length_append] at ih
    omega

/-- What is left to merge is no longer than the fuel. -/
theorem MergeCall.bound {xs : List α} {fuel : Nat} {st : List α × List α × List α}
    (h : MergeCall le xs fuel st) : st.2.1.length + st.2.2.length ≤ fuel := by
  induction h with
  | start h =>
    have hlength := h.bound
    simp only [List.flatten_cons, List.length_append] at hlength
    simp only
    omega
  | @next f acc x xt y yt _ ih =>
    simp only [List.length_cons] at ih
    cases le x y with
    | false =>
      simp only [mergeStep, List.length_cons]
      omega
    | true =>
      simp only [mergeStep, List.length_cons]
      omega

/-! ## 4. Order -/

/-- With enough fuel a merge is the merge of the library. -/
theorem mergeGo_eq {fuel : Nat} (acc : List α) {xs ys : List α}
    (hfuel : xs.length + ys.length ≤ fuel) :
    mergeGo le fuel (acc, xs, ys) = acc.reverse ++ xs.merge ys le := by
  induction fuel generalizing acc xs ys with
  | zero =>
    obtain rfl : xs = [] := List.length_eq_zero_iff.mp (by omega)
    obtain rfl : ys = [] := List.length_eq_zero_iff.mp (by omega)
    simp [mergeGo, List.reverseAux_eq]
  | succ f ih =>
    rcases xs with _ | ⟨x, xt⟩ <;> rcases ys with _ | ⟨y, yt⟩
    · simp [mergeGo, List.reverseAux_eq]
    · simp [mergeGo, List.reverseAux_eq]
    · simp [mergeGo, List.reverseAux_eq]
    · rw [mergeGo, List.cons_merge_cons]
      simp only [List.length_cons] at hfuel
      cases le x y with
      | false =>
        rw [mergeStep, ih _ (by simp only [List.length_cons]; omega)]
        simp
      | true =>
        rw [mergeStep, ih _ (by simp only [List.length_cons]; omega)]
        simp

/-- The two elements are equivalent. -/
def equiv (le : α → α → Bool) (a b : α) : Bool := le a b && le b a

/-- Every element is at most each one behind it. -/
def Sorted (le : α → α → Bool) (xs : List α) : Prop := xs.Pairwise fun a b => le a b

/-- A merge of sorted runs takes equivalents from the first run first. -/
theorem filter_merge (htrans : ∀ a b c, le a b → le b c → le a c) (a : α) {xs ys : List α}
    (hxs : Sorted le xs) :
    (xs.merge ys le).filter (equiv le a) = xs.filter (equiv le a) ++ ys.filter (equiv le a) := by
  induction xs generalizing ys with
  | nil => simp
  | cons x xt ihx =>
    have hxt : Sorted le xt := hxs.of_cons
    induction ys with
    | nil => simp
    | cons y yt ihy =>
      rw [List.cons_merge_cons]
      cases hle : le x y with
      | true =>
        rw [if_pos rfl, List.filter_cons, ihx hxt, List.filter_cons (x := x)]
        split
        · rfl
        · rfl
      | false =>
        rw [if_neg Bool.false_ne_true, List.filter_cons, ihy]
        by_cases hy : equiv le a y
        · have hnone : (x :: xt).filter (equiv le a) = [] := by
            refine List.filter_eq_nil_iff.mpr fun z hz hza => ?_
            simp only [equiv, Bool.and_eq_true] at hy hza
            have hzy : le z y := htrans z a y hza.2 hy.1
            rcases List.mem_cons.mp hz with rfl | hz
            · exact absurd hzy (by simp [hle])
            · have hxz : le x z := List.rel_of_pairwise_cons hxs hz
              exact absurd (htrans x z y hxz hzy) (by simp [hle])
          rw [if_pos hy, hnone, List.filter_cons_of_pos hy]
          rfl
        · rw [if_neg hy, List.filter_cons_of_neg hy]

/-- A pass keeps sortedness of every run, and the order of equivalents through all of them. -/
theorem sortPass_sorted {n : Nat} {runs : List (List α)}
    (htotal : ∀ a b, le a b || le b a) (htrans : ∀ a b c, le a b → le b c → le a c)
    (hn : runs.flatten.length ≤ n) (hruns : ∀ r ∈ runs, Sorted le r) :
    (∀ r ∈ sortPass le n runs, Sorted le r) ∧
      ∀ a, (sortPass le n runs).flatten.filter (equiv le a) =
        runs.flatten.filter (equiv le a) := by
  fun_induction sortPass le n runs with
  | case1 => exact ⟨hruns, fun _ => rfl⟩
  | case2 r => exact ⟨hruns, fun _ => rfl⟩
  | case3 r1 r2 rest ih =>
    simp only [List.flatten_cons, List.length_append] at hn
    obtain ⟨hsorted, hfilter⟩ := ih (by omega) fun r hr => hruns r (by simp [hr])
    have h1 : Sorted le r1 := hruns r1 (by simp)
    have h2 : Sorted le r2 := hruns r2 (by simp)
    have hmerge : mergeGo le n ([], r1, r2) = r1.merge r2 le :=
      mergeGo_eq [] (by omega)
    rw [hmerge]
    constructor
    · intro r hr
      rcases List.mem_cons.mp hr with rfl | hr
      · exact List.pairwise_merge htrans htotal r1 r2 h1 h2
      · exact hsorted r hr
    · intro a
      simp only [List.flatten_cons, List.filter_append, filter_merge htrans a h1, hfilter,
        List.append_assoc]

/-- With as much fuel as runs, the passes end in one sorted run. -/
theorem sortGo_sorted {n fuel : Nat} {runs : List (List α)}
    (htotal : ∀ a b, le a b || le b a) (htrans : ∀ a b c, le a b → le b c → le a c)
    (hn : runs.flatten.length ≤ n) (hfuel : runs.length ≤ fuel)
    (hruns : ∀ r ∈ runs, Sorted le r) :
    Sorted le (sortGo le n fuel runs) ∧
      ∀ a, (sortGo le n fuel runs).filter (equiv le a) = runs.flatten.filter (equiv le a) := by
  induction fuel generalizing runs with
  | zero =>
    obtain rfl : runs = [] := List.length_eq_zero_iff.mp (by omega)
    exact ⟨List.Pairwise.nil, fun _ => rfl⟩
  | succ f ih =>
    rcases runs with _ | ⟨r1, _ | ⟨r2, rest⟩⟩
    · exact ⟨List.Pairwise.nil, fun _ => rfl⟩
    · exact ⟨hruns r1 (by simp), fun a => by simp [sortGo]⟩
    · obtain ⟨hsorted, hfilter⟩ := sortPass_sorted htotal htrans hn hruns
      have hlength : (sortPass le n (r1 :: r2 :: rest)).length ≤ f := by
        simp only [length_sortPass, List.length_cons] at hfuel ⊢
        omega
      have hflatten : (sortPass le n (r1 :: r2 :: rest)).flatten.length ≤ n :=
        sortPass_perm.length_eq.le.trans hn
      rw [sortGo]
      obtain ⟨hout, horder⟩ := ih hflatten hlength hsorted
      exact ⟨hout, fun a => (horder a).trans (hfilter a)⟩

theorem sorted_sortRuns (xs : List α) : ∀ r ∈ sortRuns xs, Sorted le r := by
  induction xs with
  | nil => exact fun r hr => absurd hr List.not_mem_nil
  | cons h t ih =>
    intro r hr
    rcases List.mem_cons.mp hr with rfl | hr
    · exact List.pairwise_singleton _ _
    · exact ih r hr

/-! ## 5. The result -/

/-- The sort permutes its list; for a total preorder it sorts it, equivalents in their order; and
there is fuel while two runs are left, and while both runs of a merge are. -/
theorem sort_stable (le : α → α → Bool) (xs : List α) :
    (sort le xs).Perm xs ∧
      ((∀ a b, le a b || le b a) → (∀ a b c, le a b → le b c → le a c) →
        Sorted le (sort le xs) ∧
          ∀ a, (sort le xs).filter (equiv le a) = xs.filter (equiv le a)) ∧
      (∀ fuel runs, SortCall le xs fuel runs → 2 ≤ runs.length → 0 < fuel) ∧
      ∀ fuel acc ys zs, MergeCall le xs fuel (acc, ys, zs) → ys ≠ [] → zs ≠ [] → 0 < fuel := by
  refine ⟨sort_perm xs, fun htotal htrans => ?_, fun fuel runs hcall htwo => ?_,
    fun fuel acc ys zs hcall hys hzs => ?_⟩
  · have hfit : (sortRuns xs).flatten.length ≤ xs.length := by simp
    have hgo := sortGo_sorted htotal htrans hfit (length_sortRuns xs).le (sorted_sortRuns xs)
    simp only [flatten_sortRuns] at hgo
    exact hgo
  · have hbound := hcall.bound.1
    omega
  · have hbound : ys.length + zs.length ≤ fuel := hcall.bound
    have hpos : 0 < ys.length := List.length_pos_iff.mpr hys
    omega

/-- Pairs in the order of their first parts. -/
theorem sort_stable_pairs :
    (Sorted (fun a b : Nat × Nat => decide (a.1 ≤ b.1))
      (sort (fun a b => decide (a.1 ≤ b.1)) [(2, 0), (1, 1), (2, 2)]) ∧
        (sort (fun a b : Nat × Nat => decide (a.1 ≤ b.1)) [(2, 0), (1, 1), (2, 2)]).filter
          (equiv (fun a b => decide (a.1 ≤ b.1)) (2, 5)) = [(2, 0), (2, 2)]) ∧
      0 < 3 := by
  obtain ⟨-, hsorted, hruns, -⟩ := sort_stable (fun a b : Nat × Nat => decide (a.1 ≤ b.1))
    [(2, 0), (1, 1), (2, 2)]
  have hout := hsorted (fun a b => by simp only [Bool.or_eq_true, decide_eq_true_eq]; omega)
    (fun a b c hab hbc => by simp only [decide_eq_true_eq] at hab hbc ⊢; omega)
  exact ⟨⟨hout.1, hout.2 (2, 5)⟩, hruns 3 _ .start (by decide)⟩

end TeamyBend.Base
