/-
# Occurrences on the paths of a tree

A tree of variable occurrences whose nodes put parts side by side, choose between two parts, or bind
a variable.  A path fixes one side at every choice; what it meets is a list of occurrences.

`paths` lists them all and `most` counts without listing: `most_isGreatest` says that it is the
maximum over the paths.  A scope carries a label, and `Bounded` asks that every path through a scope
meets its variable as often as the label permits.
-/
import Mathlib.Order.Bounds.Basic
import Mathlib.Data.List.Basic
import Mathlib.Order.Lattice

namespace TeamyBend.Library

/-- A tree of occurrences of variables `α`, with scopes labelled by `β`. -/
inductive Occurrences (α β : Type) where
  | leaf
  | var (x : α)
  | both (a b : Occurrences α β)
  | choice (a b : Occurrences α β)
  | scope (label : β) (x : α) (body : Occurrences α β)

namespace Occurrences

variable {α β : Type} [DecidableEq α]

/-- What each path meets, with the bound variables taken out. -/
def paths : Occurrences α β → List (List α)
  | leaf => [[]]
  | var x => [[x]]
  | both a b => a.paths.flatMap fun p => b.paths.map (p ++ ·)
  | choice a b => a.paths ++ b.paths
  | scope _ x body => body.paths.map (·.filter fun y => decide (y ≠ x))

/-- The largest number of occurrences of a variable on one path. -/
def most (y : α) : Occurrences α β → Nat
  | leaf => 0
  | var x => if x = y then 1 else 0
  | both a b => a.most y + b.most y
  | choice a b => max (a.most y) (b.most y)
  | scope _ x body => if x = y then 0 else body.most y

/-- How often the paths of a tree meet a variable. -/
def counts (t : Occurrences α β) (y : α) : Set Nat := {n | ∃ p ∈ t.paths, p.count y = n}

theorem count_filter_ne {x y : α} (h : x ≠ y) (p : List α) :
    (p.filter fun z => decide (z ≠ x)).count y = p.count y :=
  List.count_filter (by simpa using Ne.symm h)

theorem count_filter_self (x : α) (p : List α) :
    (p.filter fun z => decide (z ≠ x)).count x = 0 := by
  rw [List.count_eq_zero]
  simp

/-- **`most` is the maximum over the paths.** -/
theorem most_isGreatest (t : Occurrences α β) (y : α) : IsGreatest (t.counts y) (t.most y) := by
  induction t with
  | leaf =>
    refine ⟨⟨[], by simp [paths], rfl⟩, ?_⟩
    rintro _ ⟨p, hp, rfl⟩
    simp only [paths, List.mem_singleton] at hp
    simp [hp]
  | var x =>
    refine ⟨⟨[x], by simp [paths], by simp [most, List.count_singleton]⟩, ?_⟩
    rintro _ ⟨p, hp, rfl⟩
    simp only [paths, List.mem_singleton] at hp
    simp [hp, most, List.count_singleton]
  | both a b iha ihb =>
    obtain ⟨⟨p, hp, hpc⟩, ha⟩ := iha
    obtain ⟨⟨q, hq, hqc⟩, hb⟩ := ihb
    refine ⟨⟨p ++ q, ?_, by rw [List.count_append, hpc, hqc, most]⟩, ?_⟩
    · exact List.mem_flatMap.mpr ⟨p, hp, List.mem_map.mpr ⟨q, hq, rfl⟩⟩
    · rintro _ ⟨r, hr, rfl⟩
      obtain ⟨p', hp', hr⟩ := List.mem_flatMap.mp hr
      obtain ⟨q', hq', rfl⟩ := List.mem_map.mp hr
      rw [List.count_append, most]
      exact Nat.add_le_add (ha ⟨p', hp', rfl⟩) (hb ⟨q', hq', rfl⟩)
  | choice a b iha ihb =>
    have hunion : (choice a b).counts y = a.counts y ∪ b.counts y := by
      ext n
      simp [counts, paths, or_and_right, exists_or]
    rw [hunion, most]
    exact iha.union ihb
  | scope label x body ih =>
    obtain ⟨⟨p, hp, hpc⟩, hbody⟩ := ih
    by_cases hxy : x = y
    · subst hxy
      rw [most, if_pos rfl]
      refine ⟨⟨_, List.mem_map.mpr ⟨p, hp, rfl⟩, count_filter_self x p⟩, ?_⟩
      rintro _ ⟨q, hq, rfl⟩
      obtain ⟨p', -, rfl⟩ := List.mem_map.mp hq
      exact (count_filter_self x p').le
    · rw [most, if_neg hxy]
      refine ⟨⟨_, List.mem_map.mpr ⟨p, hp, rfl⟩, (count_filter_ne hxy p).trans hpc⟩, ?_⟩
      rintro _ ⟨q, hq, rfl⟩
      obtain ⟨p', hp', rfl⟩ := List.mem_map.mp hq
      rw [count_filter_ne hxy]
      exact hbody ⟨p', hp', rfl⟩

/-- Every path through a scope meets its variable as often as the label permits. -/
def Bounded (permits : β → Nat → Prop) : Occurrences α β → Prop
  | leaf => True
  | var _ => True
  | both a b => a.Bounded permits ∧ b.Bounded permits
  | choice a b => a.Bounded permits ∧ b.Bounded permits
  | scope label x body =>
    (∀ p ∈ body.paths, permits label (p.count x)) ∧ body.Bounded permits

/-- A scope is bounded when its label permits the maximum. -/
theorem bounded_scope (permits : β → Nat → Prop)
    (hdown : ∀ label m n, m ≤ n → permits label n → permits label m) {label : β} {x : α}
    {body : Occurrences α β} (h : permits label (body.most x)) (hbody : body.Bounded permits) :
    (scope label x body).Bounded permits :=
  ⟨fun p hp => hdown label _ _ ((most_isGreatest body x).2 ⟨p, hp, rfl⟩) h, hbody⟩

end Occurrences

end TeamyBend.Library
