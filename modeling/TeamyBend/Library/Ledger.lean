/-
# Ledgers

The entries of a system in a list, each in one place.  A step takes some entries off and puts
others on, and the rest stays.  `Trade` says so up to order, so every additive measure of the
entries (how many there are, how many have a property, what they weigh) changes by what was taken
and by what was put.

A system keeps its entries with several holders; changing one holder trades its own entries.  The
entries of a map are a ledger as well.
-/
import Mathlib.Algebra.Order.Ring.Nat
import Mathlib.Data.List.AList
import Mathlib.Data.List.Perm.Basic

namespace TeamyBend.Library

variable {α β : Type}

/-- Taking `old` off the ledger and putting `new` on it. -/
def Trade (before old new after : List α) : Prop := (after ++ old).Perm (before ++ new)

namespace Trade

variable {before old new after : List α}

/-- **Every weight changes by what was traded.** -/
theorem sum (h : Trade before old new after) (weight : α → Nat) :
    (after.map weight).sum + (old.map weight).sum =
      (before.map weight).sum + (new.map weight).sum := by
  have hsum := (List.Perm.map weight h).sum_nat
  simpa only [List.map_append, List.sum_append] using hsum

theorem countP (h : Trade before old new after) (p : α → Bool) :
    after.countP p + old.countP p = before.countP p + new.countP p := by
  simpa only [List.countP_append] using List.Perm.countP_eq p h

theorem length (h : Trade before old new after) :
    after.length + old.length = before.length + new.length := by
  simpa only [List.length_append] using List.Perm.length_eq h

/-- What is on the ledger was there or is new. -/
theorem mem (h : Trade before old new after) {a : α} (ha : a ∈ after) : a ∈ before ∨ a ∈ new :=
  List.mem_append.mp (List.Perm.mem_iff h |>.mp (List.mem_append_left _ ha))

/-- What is taken was there or is put back. -/
theorem mem_old (h : Trade before old new after) {a : α} (ha : a ∈ old) : a ∈ before ∨ a ∈ new :=
  List.mem_append.mp (List.Perm.mem_iff h |>.mp (List.mem_append_right _ ha))

/-- What is put is there, unless it is taken as well. -/
theorem mem_new (h : Trade before old new after) {a : α} (hnew : a ∈ new) (hold : a ∉ old) :
    a ∈ after :=
  (List.mem_append.mp
    (List.Perm.mem_iff h |>.mpr (List.mem_append_right _ hnew))).resolve_right hold

theorem sum_indicator (p : α → Bool) (l : List α) :
    (l.map fun a => if p a then 1 else 0).sum = l.countP p := by
  induction l with
  | nil => rfl
  | cons a l ih =>
    rw [List.map_cons, List.sum_cons, ih, List.countP_cons]
    omega

/-- Ledgers on which every weight agrees are the same up to order. -/
theorem of_sums (h : ∀ weight : α → Nat, (after.map weight).sum + (old.map weight).sum =
    (before.map weight).sum + (new.map weight).sum) : Trade before old new after := by
  classical
  refine List.perm_iff_count.mpr fun a => ?_
  have hsums := h fun b => if b == a then 1 else 0
  simpa only [sum_indicator, List.count, List.countP_append] using hsums

/-- A part of the entries is a ledger of its own. -/
theorem filterMap (h : Trade before old new after) (f : α → Option β) :
    Trade (before.filterMap f) (old.filterMap f) (new.filterMap f) (after.filterMap f) := by
  have hperm := List.Perm.filterMap f h
  simpa only [Trade, List.filterMap_append] using hperm

/-- One trade after the other. -/
theorem trans {old' new' last : List α} (h : Trade before old new after)
    (h' : Trade after old' new' last) : Trade before (old ++ old') (new ++ new') last := by
  refine .of_sums fun weight => ?_
  have hsum := h.sum weight
  have hsum' := h'.sum weight
  simp only [List.map_append, List.sum_append]
  omega

/-- What is put back was not taken. -/
theorem cancel (same : List α) (h : Trade before (old ++ same) (same ++ new) after) :
    Trade before old new after := by
  refine .of_sums fun weight => ?_
  have hsum := h.sum weight
  simp only [List.map_append, List.sum_append] at hsum
  omega

end Trade

/-! ## Holders -/

section Holders

variable {l : List β} {i : Nat} {b : β}

theorem sum_map_eraseIdx (h : l[i]? = some b) (weight : β → Nat) :
    ((l.eraseIdx i).map weight).sum + weight b = (l.map weight).sum := by
  obtain ⟨hlt, hget⟩ := List.getElem?_eq_some_iff.mp h
  have hsum := ((List.getElem_cons_eraseIdx_perm hlt).map weight).sum_nat
  rw [hget, List.map_cons, List.sum_cons] at hsum
  omega

theorem sum_map_set (h : l[i]? = some b) (b' : β) (weight : β → Nat) :
    ((l.set i b').map weight).sum + weight b = (l.map weight).sum + weight b' := by
  obtain ⟨hlt, -⟩ := List.getElem?_eq_some_iff.mp h
  have hsum := ((List.set_perm_cons_eraseIdx hlt b').map weight).sum_nat
  rw [List.map_cons, List.sum_cons] at hsum
  have herase := sum_map_eraseIdx h weight
  omega

/-- A holder that changes trades itself. -/
theorem trade_set (h : l[i]? = some b) (b' : β) : Trade l [b] [b'] (l.set i b') := by
  refine .of_sums fun weight => ?_
  have hset := sum_map_set h b' weight
  simp only [List.map_cons, List.map_nil, List.sum_cons, List.sum_nil]
  omega

/-- What satisfies a test and what does not. -/
theorem sum_map_filter (p : β → Bool) (weight : β → Nat) (l : List β) :
    ((l.filter p).map weight).sum + ((l.filter fun b => !p b).map weight).sum =
      (l.map weight).sum := by
  rw [← List.sum_append, ← List.map_append]
  exact ((List.filter_append_perm p l).map weight).sum_nat

variable (entries : β → List α) (weight : α → Nat)

theorem sum_flatMap (l : List β) : ((l.flatMap entries).map weight).sum =
    (l.map fun b => ((entries b).map weight).sum).sum := by
  induction l with
  | nil => rfl
  | cons b l ih =>
    rw [List.flatMap_cons, List.map_append, List.sum_append, ih, List.map_cons, List.sum_cons]

/-- A holder that leaves takes its entries along. -/
theorem sum_flatMap_eraseIdx (h : l[i]? = some b) :
    (((l.eraseIdx i).flatMap entries).map weight).sum + ((entries b).map weight).sum =
      ((l.flatMap entries).map weight).sum := by
  simp only [sum_flatMap]
  exact sum_map_eraseIdx h _

/-- A holder that changes changes the weight of all by its own. -/
theorem sum_flatMap_set (h : l[i]? = some b) (b' : β) :
    (((l.set i b').flatMap entries).map weight).sum + ((entries b).map weight).sum =
      ((l.flatMap entries).map weight).sum + ((entries b').map weight).sum := by
  simp only [sum_flatMap]
  exact sum_map_set h b' _

end Holders

/-! ## Maps -/

section Entries

variable {β : Nat → Type} {s : AList β} {a : Nat} {b : β a}

/-- The entry that a lookup finds and the entries that erasing leaves. -/
theorem entries_perm_erase (h : s.lookup a = some b) :
    s.entries.Perm (⟨a, b⟩ :: (s.erase a).entries) := by
  have hentry : ⟨a, b⟩ ∈ s.entries := List.of_mem_dlookup h
  obtain ⟨b', l₁, l₂, -, hsplit, herase⟩ := List.exists_of_kerase (List.mem_keys_of_mem hentry)
  have hentry' : ⟨a, b'⟩ ∈ s.entries := by
    rw [hsplit]
    exact List.mem_append_right _ List.mem_cons_self
  have hb : b = b' := s.nodupKeys.eq_of_mk_mem hentry hentry'
  subst hb
  change s.entries.Perm (⟨a, b⟩ :: s.entries.kerase a)
  rw [herase, hsplit]
  exact List.perm_middle

theorem keys_perm_erase (h : a ∈ s) : s.keys.Perm (a :: (s.erase a).keys) := by
  rw [AList.keys_erase]
  exact List.perm_cons_erase (AList.mem_keys.mp h)

theorem keys_insert_new (h : a ∉ s) : (s.insert a b).keys = a :: s.keys := by
  rw [AList.keys_insert, List.erase_of_not_mem (mt AList.mem_keys.mpr h)]

end Entries

end TeamyBend.Library
