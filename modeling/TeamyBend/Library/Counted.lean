/-
# Counted references

A graph whose nodes count how often they are named.  `Counted` says that each node is named as often
as it counts, by the nodes and by the roots outside, and that no path leads back to its start.  What
a program does with such a graph is one of a few moves, and each of them keeps the counts: a node is
named once less (`release`), the last name of a node is given up and the names that it holds become
roots (`remove`), and a new node takes roots over (`insert`).

The nodes are those that are reached from the roots (`Counted.mem_iff`), so none is left without a
root (`Counted.eq_zero`).
-/
import Mathlib.Algebra.Order.BigOperators.Group.Multiset
import Mathlib.Algebra.Order.Group.Nat
import Mathlib.Data.Multiset.Bind
import TeamyBend.Library.Worklist

namespace TeamyBend.Library

open Multiset (replicate)

variable {α : Type}

/-- Each node is named as often as it counts. -/
structure Counted (need : α → Nat) (out : α → Multiset α) (nodes roots : Multiset α) : Prop where
  nodup : nodes.Nodup
  balance : roots + nodes.bind out = nodes.bind fun x => replicate (need x) x
  positive : ∀ x ∈ nodes, 0 < need x
  descends : ∃ rank : α → Nat, ∀ x ∈ nodes, ∀ y ∈ out x, rank y < rank x

namespace Counted

variable {need need' : α → Nat} {out out' : α → Multiset α} {nodes roots rest : Multiset α}
  {x : α}

/-! ## 1. What is named is a node -/

theorem mem_named (h : Counted need out nodes roots) (hx : x ∈ roots + nodes.bind out) :
    x ∈ nodes := by
  rw [h.balance, Multiset.mem_bind] at hx
  obtain ⟨y, hy, hxy⟩ := hx
  rwa [Multiset.eq_of_mem_replicate hxy]

theorem mem_of_root (h : Counted need out nodes roots) (hx : x ∈ roots) : x ∈ nodes :=
  h.mem_named (Multiset.mem_add.2 (.inl hx))

theorem mem_of_out (h : Counted need out nodes roots) (hy : y ∈ nodes) (hx : x ∈ out y) :
    x ∈ nodes :=
  h.mem_named (Multiset.mem_add.2 (.inr (Multiset.mem_bind.2 ⟨y, hy, hx⟩)))

/-- Every node is named. -/
theorem named (h : Counted need out nodes roots) (hx : x ∈ nodes) :
    x ∈ roots ∨ ∃ y ∈ nodes, x ∈ out y := by
  have hmem : x ∈ roots + nodes.bind out := by
    rw [h.balance, Multiset.mem_bind]
    exact ⟨x, hx, Multiset.mem_replicate.2 ⟨(h.positive x hx).ne', rfl⟩⟩
  exact (Multiset.mem_add.1 hmem).imp id Multiset.mem_bind.1

theorem congr (h : Counted need out nodes roots) (hneed : ∀ x ∈ nodes, need' x = need x)
    (hout : ∀ x ∈ nodes, out' x = out x) : Counted need' out' nodes roots where
  nodup := h.nodup
  balance := by
    rw [Multiset.bind_congr hout, h.balance]
    exact Multiset.bind_congr fun x hx => by rw [hneed x hx]
  positive x hx := hneed x hx ▸ h.positive x hx
  descends := by
    obtain ⟨rank, hrank⟩ := h.descends
    exact ⟨rank, fun x hx y hy => hrank x hx y (hout x hx ▸ hy)⟩

/-! ## 2. Moves -/

/-- A reference less is a root less. -/
theorem release (h : Counted need out nodes (x ::ₘ roots)) (hneed : need x = need' x + 1)
    (hpos : 0 < need' x) (hother : ∀ y ∈ nodes, y ≠ x → need' y = need y) :
    Counted need' out nodes roots := by
  have hx : x ∈ nodes := h.mem_of_root (Multiset.mem_cons_self x roots)
  obtain ⟨others, rfl⟩ := Multiset.exists_cons_of_mem hx
  have hnot : x ∉ others := (Multiset.nodup_cons.1 h.nodup).1
  refine ⟨h.nodup, ?_, fun y hy => ?_, h.descends⟩
  · have hsame : (others.bind fun y => replicate (need' y) y) =
        others.bind fun y => replicate (need y) y :=
      Multiset.bind_congr fun y hy => by
        rw [hother y (Multiset.mem_cons_of_mem hy) (ne_of_mem_of_not_mem hy hnot)]
    have hbalance := h.balance
    rw [Multiset.cons_add, Multiset.cons_bind (f := fun x => replicate (need x) x), hneed,
      Multiset.replicate_succ, Multiset.cons_add] at hbalance
    rw [(Multiset.cons_inj_right x).1 hbalance, Multiset.cons_bind, hsame]
  · by_cases hyx : y = x
    · rw [hyx]
      exact hpos
    · rw [hother y hy hyx]
      exact h.positive y hy

/-- The last name of a node is given up. -/
theorem remove (h : Counted need out (x ::ₘ nodes) (x ::ₘ roots)) (hneed : need x = 1) :
    Counted need out nodes (out x + roots) where
  nodup := (Multiset.nodup_cons.1 h.nodup).2
  balance := by
    have hbalance := h.balance
    rw [Multiset.cons_add, Multiset.cons_bind, Multiset.cons_bind, hneed, Multiset.replicate_one,
      Multiset.singleton_add] at hbalance
    rw [← (Multiset.cons_inj_right x).1 hbalance, add_left_comm, add_assoc]
  positive y hy := h.positive y (Multiset.mem_cons_of_mem hy)
  descends := by
    obtain ⟨rank, hrank⟩ := h.descends
    exact ⟨rank, fun y hy => hrank y (Multiset.mem_cons_of_mem hy)⟩

/-- A new node takes roots over. -/
theorem insert (h : Counted need out nodes (out x + roots)) (hx : x ∉ nodes) (hneed : 0 < need x) :
    Counted need out (x ::ₘ nodes) (replicate (need x) x + roots) where
  nodup := Multiset.nodup_cons.2 ⟨hx, h.nodup⟩
  balance := by
    rw [Multiset.cons_bind, Multiset.cons_bind, ← h.balance, add_assoc, ← add_assoc roots,
      add_comm roots]
  positive y hy := by
    rcases Multiset.mem_cons.1 hy with rfl | hy
    · exact hneed
    · exact h.positive y hy
  descends := by
    classical
    obtain ⟨rank, hrank⟩ := h.descends
    -- The new node is named by no other, so it can be as high as need be.
    refine ⟨Function.update rank x (((out x).map rank).sum + 1), fun y hy z hz => ?_⟩
    have hz' : z ∈ nodes := by
      rcases Multiset.mem_cons.1 hy with rfl | hy
      · exact h.mem_of_root (Multiset.mem_add.2 (.inl hz))
      · exact h.mem_of_out hy hz
    rw [Function.update_of_ne (ne_of_mem_of_not_mem hz' hx)]
    rcases Multiset.mem_cons.1 hy with rfl | hy
    · rw [Function.update_self]
      exact Nat.lt_succ_of_le (Multiset.le_sum_of_mem (Multiset.mem_map_of_mem rank hz))
    · rw [Function.update_of_ne (ne_of_mem_of_not_mem hy hx)]
      exact hrank y hy z hz

/-! ## 3. What is reached -/

theorem reached (h : Counted need out nodes roots) (hx : x ∈ nodes) :
    Reaches (fun a b => b ∈ out a) (· ∈ roots) x := by
  obtain ⟨rank, hrank⟩ := h.descends
  have hbound : ∀ y ∈ nodes, rank y ≤ (nodes.map rank).sum := fun y hy =>
    Multiset.le_sum_of_mem (Multiset.mem_map_of_mem rank hy)
  -- By induction on how far the rank of the node is from the bound.
  induction hd : (nodes.map rank).sum - rank x using Nat.strong_induction_on generalizing x with
  | _ d ih =>
    rcases h.named hx with hroot | ⟨y, hy, hxy⟩
    · exact .of_start hroot
    · have := hrank y hy x hxy
      have := hbound y hy
      exact (ih _ (by omega) hy rfl).tail hxy

/-- **The nodes are those that are reached from the roots.** -/
theorem mem_iff (h : Counted need out nodes roots) :
    x ∈ nodes ↔ Reaches (fun a b => b ∈ out a) (· ∈ roots) x :=
  ⟨h.reached, fun hx => hx.induct (fun _ hs => h.mem_of_root hs) fun _ _ => h.mem_of_out⟩

/-- **Without a root there is no node.** -/
theorem eq_zero (h : Counted need out nodes 0) : nodes = 0 := by
  refine Multiset.eq_zero_of_forall_notMem fun x hx => ?_
  obtain ⟨s, hs, -⟩ := h.reached hx
  exact Multiset.notMem_zero s hs

end Counted

end TeamyBend.Library
