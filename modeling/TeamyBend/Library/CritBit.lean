/-
# Crit-bit trees over keys that are read one bit at a time

A key is anything with a bit at every position `bit : K → Nat → Bool`.  A node names the first
position at which two of the keys below it differ and keeps the keys with a clear bit on its
left.  So the keys below a node agree on every earlier position, and a search may skip those
positions: it follows the key's own bits to ONE leaf and compares there.

The tree is determined by the finite map it denotes (`eq_of_lookup_eq`).  Insertion does not
compare the key with every leaf: the leaf the search reaches (`seek`) is as close as any other,
so the first position where the key leaves it (`Differ`) is where the new node goes
(`wf_ins`).

Nothing here fixes the key type, its order or how a difference is computed.
-/
import Mathlib.Data.List.Basic
import Mathlib.Data.List.Pairwise
import Mathlib.Logic.Basic

namespace CritBit

universe u v

/-! ## 1. Trees and their keys -/

/-- A binary tree whose nodes carry a bit position and whose leaves carry the entries. -/
inductive Trie (K : Type u) (V : Type v) where
  | tip
  | leaf (key : K) (val : V)
  | node (pos : Nat) (lo hi : Trie K V)
  deriving Repr, DecidableEq

variable {K : Type u} {V : Type v}

namespace Trie

/-- The entries from left to right. -/
def entries : Trie K V → List (K × V)
  | tip => []
  | leaf k x => [(k, x)]
  | node _ lo hi => lo.entries ++ hi.entries

/-- The keys from left to right. -/
def keys (t : Trie K V) : List K := t.entries.map Prod.fst

/-- The positions named by the nodes. -/
def positions : Trie K V → List Nat
  | tip => []
  | leaf _ _ => []
  | node p lo hi => p :: (lo.positions ++ hi.positions)

@[simp] theorem keys_tip : (tip : Trie K V).keys = [] := rfl

@[simp] theorem keys_leaf (k : K) (x : V) : (leaf k x).keys = [k] := rfl

@[simp] theorem keys_node (p : Nat) (lo hi : Trie K V) :
    (node p lo hi).keys = lo.keys ++ hi.keys := by
  simp [keys, entries]

end Trie

open Trie

/-- Two keys differ first at position `p`. -/
structure Differ (bit : K → Nat → Bool) (j k : K) (p : Nat) : Prop where
  before : ∀ q < p, bit j q = bit k q
  here : bit j p ≠ bit k p

/-- The first differing position is unique. -/
theorem Differ.unique {bit : K → Nat → Bool} {j k : K} {p q : Nat} (hp : Differ bit j k p)
    (hq : Differ bit j k q) : p = q := by
  rcases Nat.lt_trichotomy p q with h | h | h
  · exact absurd (hq.before p h) hp.here
  · exact h
  · exact absurd (hp.before q h) hq.here

/-! ## 2. The invariant -/

section Wf

variable (bit : K → Nat → Bool)

/-- Every node separates two non-empty sides at its position, and the keys below it agree on
every earlier position. -/
def Wf : Trie K V → Prop
  | tip => True
  | leaf _ _ => True
  | node p lo hi =>
    (lo ≠ tip ∧ hi ≠ tip) ∧ (Wf lo ∧ Wf hi) ∧
      ((∀ k ∈ lo.keys, bit k p = false) ∧ ∀ k ∈ hi.keys, bit k p = true) ∧
      ∀ j ∈ (node p lo hi).keys, ∀ k ∈ (node p lo hi).keys, ∀ q < p, bit j q = bit k q

variable {bit}

theorem Wf.sides {p : Nat} {lo hi : Trie K V} (h : Wf bit (node p lo hi)) : lo ≠ tip ∧ hi ≠ tip :=
  h.1

theorem Wf.lo {p : Nat} {lo hi : Trie K V} (h : Wf bit (node p lo hi)) : Wf bit lo := h.2.1.1

theorem Wf.hi {p : Nat} {lo hi : Trie K V} (h : Wf bit (node p lo hi)) : Wf bit hi := h.2.1.2

theorem Wf.bit_lo {p : Nat} {lo hi : Trie K V} (h : Wf bit (node p lo hi)) {k : K}
    (hk : k ∈ lo.keys) : bit k p = false := h.2.2.1.1 k hk

theorem Wf.bit_hi {p : Nat} {lo hi : Trie K V} (h : Wf bit (node p lo hi)) {k : K}
    (hk : k ∈ hi.keys) : bit k p = true := h.2.2.1.2 k hk

theorem Wf.agree {p : Nat} {lo hi : Trie K V} (h : Wf bit (node p lo hi)) {j k : K}
    (hj : j ∈ (node p lo hi).keys) (hk : k ∈ (node p lo hi).keys) {q : Nat} (hq : q < p) :
    bit j q = bit k q := h.2.2.2 j hj k hk q hq

/-- A well-formed tree other than the tip holds a key. -/
theorem exists_mem_keys {t : Trie K V} (ht : t ≠ tip) (h : Wf bit t) : ∃ k, k ∈ t.keys := by
  induction t with
  | tip => exact absurd rfl ht
  | leaf k x => exact ⟨k, by simp⟩
  | node p lo hi ihlo _ =>
    obtain ⟨k, hk⟩ := ihlo h.sides.1 h.lo
    exact ⟨k, by simp [hk]⟩

/-- Both sides of a node hold a key, and any two of them differ first at the node's position. -/
theorem Wf.differ {p : Nat} {lo hi : Trie K V} (h : Wf bit (node p lo hi)) {j k : K}
    (hj : j ∈ lo.keys) (hk : k ∈ hi.keys) : Differ bit j k p :=
  ⟨fun _ hq => h.agree (by simp [hj]) (by simp [hk]) hq, by simp [h.bit_lo hj, h.bit_hi hk]⟩

/-- Keys on one side of a node agree on its position too. -/
theorem Wf.agree_le_lo {p : Nat} {lo hi : Trie K V} (h : Wf bit (node p lo hi)) {j k : K}
    (hj : j ∈ lo.keys) (hk : k ∈ lo.keys) {q : Nat} (hq : q ≤ p) : bit j q = bit k q := by
  rcases Nat.lt_or_eq_of_le hq with h1 | rfl
  · exact h.agree (by simp [hj]) (by simp [hk]) h1
  · rw [h.bit_lo hj, h.bit_lo hk]

theorem Wf.agree_le_hi {p : Nat} {lo hi : Trie K V} (h : Wf bit (node p lo hi)) {j k : K}
    (hj : j ∈ hi.keys) (hk : k ∈ hi.keys) {q : Nat} (hq : q ≤ p) : bit j q = bit k q := by
  rcases Nat.lt_or_eq_of_le hq with h1 | rfl
  · exact h.agree (by simp [hj]) (by simp [hk]) h1
  · rw [h.bit_hi hj, h.bit_hi hk]

/-- Every position below a bound that all keys agree on is above that bound. -/
theorem lt_of_mem_positions {t : Trie K V} (h : Wf bit t) {p : Nat}
    (hp : ∀ j ∈ t.keys, ∀ k ∈ t.keys, ∀ q ≤ p, bit j q = bit k q) :
    ∀ q ∈ t.positions, p < q := by
  induction t with
  | tip => simp [positions]
  | leaf k x => simp [positions]
  | node r lo hi ihlo ihhi =>
    have hlo := ihlo h.lo fun j hj k hk => hp j (by simp [hj]) k (by simp [hk])
    have hhi := ihhi h.hi fun j hj k hk => hp j (by simp [hj]) k (by simp [hk])
    have hr : p < r := by
      obtain ⟨j, hj⟩ := exists_mem_keys h.sides.1 h.lo
      obtain ⟨k, hk⟩ := exists_mem_keys h.sides.2 h.hi
      by_contra hle
      exact (h.differ hj hk).here (hp j (by simp [hj]) k (by simp [hk]) r (by omega))
    intro q hq
    simp only [positions, List.mem_cons, List.mem_append] at hq
    rcases hq with rfl | hq | hq
    · exact hr
    · exact hlo q hq
    · exact hhi q hq

/-- **Positions increase downwards.** -/
theorem Wf.lt_positions {p : Nat} {lo hi : Trie K V} (h : Wf bit (node p lo hi)) :
    (∀ q ∈ lo.positions, p < q) ∧ ∀ q ∈ hi.positions, p < q :=
  ⟨lt_of_mem_positions h.lo fun _ hj _ hk _ hq => h.agree_le_lo hj hk hq,
    lt_of_mem_positions h.hi fun _ hj _ hk _ hq => h.agree_le_hi hj hk hq⟩

/-- **The keys are sorted** by any order that the first differing bit decides. -/
theorem Wf.pairwise_keys {lt : K → K → Prop}
    (hlt : ∀ j k p, Differ bit j k p → bit j p = false → lt j k) {t : Trie K V} (h : Wf bit t) :
    t.keys.Pairwise lt := by
  induction t with
  | tip => simp
  | leaf k x => simp
  | node p lo hi ihlo ihhi =>
    rw [keys_node, List.pairwise_append]
    exact ⟨ihlo h.lo, ihhi h.hi, fun j hj k hk => hlt j k p (h.differ hj hk) (h.bit_lo hj)⟩

theorem Wf.nodup_keys {t : Trie K V} (h : Wf bit t) : t.keys.Nodup := by
  show t.keys.Pairwise (· ≠ ·)
  refine h.pairwise_keys ?_
  rintro j k p hd - rfl
  exact hd.here rfl

/-- Two nodes over the same keys name the same position: it is where the first pair of keys
differs. -/
theorem Wf.pos_eq {p q : Nat} {lo hi lo' hi' : Trie K V} (h : Wf bit (node p lo hi))
    (h' : Wf bit (node q lo' hi'))
    (hkeys : ∀ k, k ∈ (node p lo hi).keys ↔ k ∈ (node q lo' hi').keys) : p = q := by
  -- a node cannot name an earlier position than another one over the same keys
  have key : ∀ {p q : Nat} {lo hi lo' hi' : Trie K V}, Wf bit (node p lo hi) →
      Wf bit (node q lo' hi') →
      (∀ k, k ∈ (node p lo hi).keys → k ∈ (node q lo' hi').keys) → q ≤ p := by
    intro p q lo hi lo' hi' h h' hsub
    obtain ⟨j, hj⟩ := exists_mem_keys h.sides.1 h.lo
    obtain ⟨k, hk⟩ := exists_mem_keys h.sides.2 h.hi
    by_contra hlt
    exact (h.differ hj hk).here
      (h'.agree (hsub j (by simp [hj])) (hsub k (by simp [hk])) (by omega))
  exact Nat.le_antisymm (key h' h fun k hk => (hkeys k).mpr hk)
    (key h h' fun k hk => (hkeys k).mp hk)

end Wf

/-! ## 3. Lookup and canonicity -/

section Lookup

variable [DecidableEq K] (bit : K → Nat → Bool)

/-- Follow the key's own bits to a leaf and compare there. -/
def lookup : Trie K V → K → Option V
  | tip, _ => none
  | leaf k x, key => if key = k then some x else none
  | node p lo hi, key => bif bit key p then lookup hi key else lookup lo key

variable {bit}

/-- The entries are what a lookup finds. -/
theorem mem_entries_iff {t : Trie K V} (h : Wf bit t) (key : K) (x : V) :
    (key, x) ∈ t.entries ↔ lookup bit t key = some x := by
  induction t with
  | tip => simp [entries, lookup]
  | leaf k y =>
    by_cases hk : key = k <;> simp [entries, lookup, hk, eq_comm]
  | node p lo hi ihlo ihhi =>
    have mem_keys : ∀ {t : Trie K V}, (key, x) ∈ t.entries → key ∈ t.keys :=
      fun hm => List.mem_map.mpr ⟨_, hm, rfl⟩
    simp only [entries, List.mem_append, lookup]
    cases hb : bit key p with
    | false =>
      rw [cond_false, ← ihlo h.lo]
      refine or_iff_left fun hm => ?_
      rw [h.bit_hi (mem_keys hm)] at hb
      exact absurd hb (by decide)
    | true =>
      rw [cond_true, ← ihhi h.hi]
      refine or_iff_right fun hm => ?_
      rw [h.bit_lo (mem_keys hm)] at hb
      exact absurd hb (by decide)

theorem mem_keys_iff {t : Trie K V} (h : Wf bit t) (key : K) :
    key ∈ t.keys ↔ ∃ x, lookup bit t key = some x := by
  simp only [keys, List.mem_map, Prod.exists, exists_and_right, exists_eq_right]
  exact exists_congr fun x => mem_entries_iff h key x

/-- A key that a node does not hold has no entry. -/
theorem lookup_eq_none {t : Trie K V} (h : Wf bit t) {key : K} (hk : key ∉ t.keys) :
    lookup bit t key = none := by
  rw [mem_keys_iff h] at hk
  exact Option.eq_none_iff_forall_not_mem.mpr fun x hx => hk ⟨x, hx⟩

/-- **Canonicity**: well-formed trees with the same entries are equal. -/
theorem eq_of_lookup_eq {t t' : Trie K V} (h : Wf bit t) (h' : Wf bit t')
    (heq : ∀ k, lookup bit t k = lookup bit t' k) : t = t' := by
  have hkeys : ∀ {t t' : Trie K V}, Wf bit t → Wf bit t' →
      (∀ k, lookup bit t k = lookup bit t' k) → ∀ k, k ∈ t.keys ↔ k ∈ t'.keys :=
    fun h h' heq k => by rw [mem_keys_iff h, mem_keys_iff h', heq k]
  -- a node holds two keys, so it shares its keys with no leaf
  have node_ne_leaf : ∀ {p : Nat} {lo hi : Trie K V} {k : K},
      Wf bit (node p lo hi) → ¬ ∀ j, j ∈ (node p lo hi).keys ↔ j ∈ [k] := by
    intro p lo hi k h hk
    obtain ⟨i, hi'⟩ := exists_mem_keys h.sides.1 h.lo
    obtain ⟨j, hj⟩ := exists_mem_keys h.sides.2 h.hi
    have hi1 : i = k := List.mem_singleton.mp ((hk i).mp (by simp [hi']))
    have hj1 : j = k := List.mem_singleton.mp ((hk j).mp (by simp [hj]))
    exact (h.differ hi' hj).here (by rw [hi1, hj1])
  induction t generalizing t' with
  | tip =>
    by_contra hne
    obtain ⟨k, hk⟩ := exists_mem_keys (Ne.symm hne) h'
    exact absurd ((hkeys h h' heq k).mpr hk) (by simp)
  | leaf k x =>
    have hk := hkeys h h' heq
    cases t' with
    | tip => exact absurd ((hk k).mp (by simp)) (by simp)
    | leaf k' x' =>
      have hkk : k = k' := by simpa using (hk k).mp (by simp)
      subst hkk
      have := heq k
      simp only [lookup, if_true, Option.some.injEq] at this
      rw [this]
    | node p lo hi => exact absurd (fun j => (hk j).symm) (node_ne_leaf h')
  | node p lo hi ihlo ihhi =>
    have hk := hkeys h h' heq
    cases t' with
    | tip =>
      obtain ⟨k, hk1⟩ := exists_mem_keys h.sides.1 h.lo
      exact absurd ((hk k).mp (by simp [hk1])) (by simp)
    | leaf k' x' => exact absurd hk (node_ne_leaf h)
    | node q lo' hi' =>
      obtain rfl := h.pos_eq h' hk
      have hlo : lo = lo' := by
        refine ihlo h.lo h'.lo fun k => ?_
        by_cases hb : bit k p = false
        · simpa [lookup, hb] using heq k
        · rw [lookup_eq_none h.lo fun hm => hb (h.bit_lo hm),
            lookup_eq_none h'.lo fun hm => hb (h'.bit_lo hm)]
      have hhi : hi = hi' := by
        refine ihhi h.hi h'.hi fun k => ?_
        by_cases hb : bit k p = true
        · simpa [lookup, hb] using heq k
        · rw [lookup_eq_none h.hi fun hm => hb (h.bit_hi hm),
            lookup_eq_none h'.hi fun hm => hb (h'.bit_hi hm)]
      rw [hlo, hhi]

end Lookup

/-! ## 4. Insertion and removal

`seek` names the leaf that the key's own bits lead to.  When it holds another key, `ins` puts
the new leaf above the first node past the position where the two differ. -/

section Update

variable (bit : K → Nat → Bool)

/-- The key at the leaf that `key`'s bits lead to. -/
def seek : Trie K V → K → Option K
  | tip, _ => none
  | leaf k _, _ => some k
  | node p lo hi, key => bif bit key p then seek hi key else seek lo key

/-- Replace the value at the leaf that `key`'s bits lead to. -/
def put : Trie K V → K → V → Trie K V
  | tip, key, x => leaf key x
  | leaf k _, _, x => leaf k x
  | node p lo hi, key, x =>
    bif bit key p then node p lo (put hi key x) else node p (put lo key x) hi

/-- A new node at position `p` over `rest` and the leaf of `key`. -/
def splice (p : Nat) (key : K) (x : V) (rest : Trie K V) : Trie K V :=
  bif bit key p then node p rest (leaf key x) else node p (leaf key x) rest

/-- Insert a leaf for `key` above the first node at or past position `p`. -/
def ins : Trie K V → K → V → Nat → Trie K V
  | tip, key, x, _ => leaf key x
  | leaf k y, key, x, p => splice bit p key x (leaf k y)
  | node q lo hi, key, x, p =>
    if q < p then
      bif bit key q then node q lo (ins hi key x p) else node q (ins lo key x p) hi
    else splice bit p key x (node q lo hi)

/-- A node at `p`, or its one side that is left when the other is gone. -/
def join (p : Nat) : Trie K V → Trie K V → Trie K V
  | tip, hi => hi
  | lo, tip => lo
  | lo, hi => node p lo hi

/-- Remove the entry of `key`. -/
def erase [DecidableEq K] : Trie K V → K → Trie K V
  | tip, _ => tip
  | leaf k x, key => if key = k then tip else leaf k x
  | node p lo hi, key =>
    bif bit key p then join p lo (erase hi key) else join p (erase lo key) hi

variable {bit}

theorem seek_mem {t : Trie K V} {key k : K} (h : seek bit t key = some k) : k ∈ t.keys := by
  induction t with
  | tip => simp [seek] at h
  | leaf j x => simpa [seek, eq_comm] using h
  | node p lo hi ihlo ihhi =>
    cases hb : bit key p with
    | false =>
      rw [seek, hb, cond_false] at h
      simp [ihlo h]
    | true =>
      rw [seek, hb, cond_true] at h
      simp [ihhi h]

/-- Only the empty trie has nothing to end a search at. -/
theorem seek_eq_none {t : Trie K V} (h : Wf bit t) {key : K} (hs : seek bit t key = none) :
    t = tip := by
  induction t with
  | tip => rfl
  | leaf j x => simp [seek] at hs
  | node p lo hi ihlo ihhi =>
    cases hb : bit key p with
    | false =>
      rw [seek, hb, cond_false] at hs
      exact absurd (ihlo h.lo hs) h.sides.1
    | true =>
      rw [seek, hb, cond_true] at hs
      exact absurd (ihhi h.hi hs) h.sides.2

/-- **The leaf the search reaches is a closest one**: below a node at or past the position
where `key` leaves it, every key has the other bit there and agrees before. -/
theorem differ_of_seek {t : Trie K V} (h : Wf bit t) {key k : K} {p : Nat}
    (hs : seek bit t key = some k) (hd : Differ bit key k p)
    (hpos : ∀ q lo hi, t = node q lo hi → p ≤ q) :
    ∀ j ∈ t.keys, Differ bit key j p := by
  cases t with
  | tip => simp
  | leaf i x =>
    intro j hj
    have hi : i = k := by simpa [seek] using hs
    rw [keys_leaf, List.mem_singleton] at hj
    rwa [hj, hi]
  | node q lo hi =>
    have hk := seek_mem hs
    have hq : p < q := by
      refine Nat.lt_of_le_of_ne (hpos q lo hi rfl) ?_
      rintro rfl
      -- at the node's own position the search follows `key`'s bit, so the leaf has it too
      cases hb : bit key p with
      | false =>
        rw [seek, hb, cond_false] at hs
        exact hd.here (hb.trans (h.bit_lo (seek_mem hs)).symm)
      | true =>
        rw [seek, hb, cond_true] at hs
        exact hd.here (hb.trans (h.bit_hi (seek_mem hs)).symm)
    intro j hj
    refine ⟨fun r hr => (hd.before r hr).trans (h.agree hk hj (Nat.lt_trans hr hq)), fun heq => ?_⟩
    exact hd.here (heq.trans (h.agree hj hk hq))

theorem keys_splice (p : Nat) (key : K) (x : V) (rest : Trie K V) (k : K) :
    k ∈ (splice bit p key x rest).keys ↔ k = key ∨ k ∈ rest.keys := by
  cases hb : bit key p <;> simp [splice, hb, or_comm]

/-- A splice at the first bit that tells the key apart stays well-formed. -/
theorem wf_splice {t : Trie K V} (h : Wf bit t) (ht : t ≠ tip) {key : K} {p : Nat}
    (hd : ∀ j ∈ t.keys, Differ bit key j p) (x : V) : Wf bit (splice bit p key x t) := by
  have hagree : ∀ j ∈ key :: t.keys, ∀ k ∈ key :: t.keys, ∀ q < p, bit j q = bit k q := by
    have hkey : ∀ j ∈ key :: t.keys, ∀ q < p, bit key q = bit j q := by
      intro j hj q hq
      rcases List.mem_cons.mp hj with rfl | hj
      · rfl
      · exact (hd j hj).before q hq
    exact fun j hj k hk q hq => (hkey j hj q hq).symm.trans (hkey k hk q hq)
  have hother : ∀ j ∈ t.keys, bit j p = !bit key p := fun j hj => by
    have := (hd j hj).here
    cases hj' : bit j p <;> cases hk' : bit key p <;> simp_all
  cases hb : bit key p with
  | false =>
    rw [splice, hb, cond_false]
    refine ⟨⟨by simp, ht⟩, ⟨trivial, h⟩, ⟨by simpa using hb, fun k hk => ?_⟩, ?_⟩
    · simpa [hb] using hother k hk
    · simpa using hagree
  | true =>
    rw [splice, hb, cond_true]
    refine ⟨⟨ht, by simp⟩, ⟨h, trivial⟩, ⟨fun k hk => ?_, by simpa using hb⟩, ?_⟩
    · simpa [hb] using hother k hk
    · intro j hj k hk
      refine hagree j ?_ k ?_
      · simpa [or_comm] using hj
      · simpa [or_comm] using hk

theorem ins_ne_tip (t : Trie K V) (key : K) (x : V) (p : Nat) : ins bit t key x p ≠ tip := by
  cases t with
  | tip => simp [ins]
  | leaf k y => cases hb : bit key p <;> simp [ins, splice, hb]
  | node q lo hi =>
    rw [ins]
    split
    · cases bit key q <;> simp
    · cases hb : bit key p <;> simp [splice, hb]

theorem mem_keys_ins (t : Trie K V) (key : K) (x : V) (p : Nat) (k : K) :
    k ∈ (ins bit t key x p).keys ↔ k = key ∨ k ∈ t.keys := by
  induction t with
  | tip => simp [ins]
  | leaf j y => simp [ins, keys_splice]
  | node q lo hi ihlo ihhi =>
    rw [ins]
    split
    · cases bit key q with
      | false => simp [ihlo, or_assoc]
      | true => simp [ihhi, or_left_comm]
    · exact keys_splice p key x _ k

/-- **Insertion keeps the invariant**, given where the key leaves the leaf it reaches. -/
theorem wf_ins {t : Trie K V} (h : Wf bit t) {key k : K} {p : Nat} (hs : seek bit t key = some k)
    (hd : Differ bit key k p) (x : V) : Wf bit (ins bit t key x p) := by
  induction t with
  | tip => trivial
  | leaf j y =>
    exact wf_splice h (by simp) (differ_of_seek h hs hd (by simp)) x
  | node q lo hi ihlo ihhi =>
    have hk := seek_mem hs
    rw [ins]
    split
    case isFalse hq =>
      refine wf_splice h (by simp) (differ_of_seek h hs hd ?_) x
      rintro q' lo' hi' ⟨⟩
      omega
    case isTrue hq =>
      -- the new key agrees with the leaf, hence with every key here, before `q`
      have hnew : ∀ i, i = key ∨ i ∈ (node q lo hi).keys → ∀ r < q, bit i r = bit k r := by
        rintro i (rfl | hi') r hr
        · exact hd.before r (Nat.lt_trans hr hq)
        · exact h.agree hi' hk hr
      cases hb : bit key q with
      | false =>
        rw [seek, hb, cond_false] at hs
        rw [cond_false]
        refine ⟨⟨ins_ne_tip _ _ _ _, h.sides.2⟩, ⟨ihlo h.lo hs, h.hi⟩, ⟨fun i hi' => ?_, h.2.2.1.2⟩,
          fun i hi' j hj r hr => ?_⟩
        · rcases (mem_keys_ins lo key x p i).mp hi' with rfl | hi'
          · exact hb
          · exact h.bit_lo hi'
        · simp only [keys_node, List.mem_append, mem_keys_ins, or_assoc] at hi' hj
          rw [hnew i (by simpa using hi') r hr, hnew j (by simpa using hj) r hr]
      | true =>
        rw [seek, hb, cond_true] at hs
        rw [cond_true]
        refine ⟨⟨h.sides.1, ins_ne_tip _ _ _ _⟩, ⟨h.lo, ihhi h.hi hs⟩, ⟨h.2.2.1.1, fun i hi' => ?_⟩,
          fun i hi' j hj r hr => ?_⟩
        · rcases (mem_keys_ins hi key x p i).mp hi' with rfl | hi'
          · exact hb
          · exact h.bit_hi hi'
        · simp only [keys_node, List.mem_append, mem_keys_ins, or_left_comm] at hi' hj
          rw [hnew i (by simpa using hi') r hr, hnew j (by simpa using hj) r hr]

@[simp] theorem keys_put_of_seek {t : Trie K V} {key k : K} (hs : seek bit t key = some k)
    (x : V) : (put bit t key x).keys = t.keys := by
  induction t with
  | tip => simp [seek] at hs
  | leaf j y => rfl
  | node p lo hi ihlo ihhi =>
    cases hb : bit key p with
    | false =>
      rw [seek, hb, cond_false] at hs
      simp [put, hb, ihlo hs]
    | true =>
      rw [seek, hb, cond_true] at hs
      simp [put, hb, ihhi hs]

theorem put_ne_tip (t : Trie K V) (key : K) (x : V) : put bit t key x ≠ tip := by
  cases t with
  | tip => simp [put]
  | leaf k y => simp [put]
  | node p lo hi => cases hb : bit key p <;> simp [put, hb]

/-- Overwriting an entry leaves the shape alone. -/
theorem wf_put {t : Trie K V} (h : Wf bit t) {key k : K} (hs : seek bit t key = some k) (x : V) :
    Wf bit (put bit t key x) := by
  induction t with
  | tip => trivial
  | leaf j y => trivial
  | node p lo hi ihlo ihhi =>
    cases hb : bit key p with
    | false =>
      rw [seek, hb, cond_false] at hs
      rw [put, hb, cond_false]
      refine ⟨⟨put_ne_tip _ _ _, h.sides.2⟩, ⟨ihlo h.lo hs, h.hi⟩, ?_, ?_⟩
      · rw [keys_put_of_seek hs]; exact h.2.2.1
      · rw [keys_node, keys_put_of_seek hs, ← keys_node p]; exact h.2.2.2
    | true =>
      rw [seek, hb, cond_true] at hs
      rw [put, hb, cond_true]
      refine ⟨⟨h.sides.1, put_ne_tip _ _ _⟩, ⟨h.lo, ihhi h.hi hs⟩, ?_, ?_⟩
      · rw [keys_put_of_seek hs]; exact h.2.2.1
      · rw [keys_node, keys_put_of_seek hs, ← keys_node p]; exact h.2.2.2

@[simp] theorem keys_join (p : Nat) (lo hi : Trie K V) :
    (join p lo hi).keys = lo.keys ++ hi.keys := by
  cases lo <;> cases hi <;> simp [join]

/-- Joining what is left of two sides keeps the invariant, also when one of them is gone. -/
theorem wf_join {p : Nat} {lo hi : Trie K V} (hlo : Wf bit lo) (hhi : Wf bit hi)
    (hbits : (∀ k ∈ lo.keys, bit k p = false) ∧ ∀ k ∈ hi.keys, bit k p = true)
    (hagree : ∀ j ∈ (node p lo hi).keys, ∀ k ∈ (node p lo hi).keys, ∀ q < p, bit j q = bit k q) :
    Wf bit (join p lo hi) := by
  by_cases h1 : lo = tip
  · subst h1
    exact hhi
  · by_cases h2 : hi = tip
    · subst h2
      cases lo <;> first | exact absurd rfl h1 | exact hlo
    · have : join p lo hi = node p lo hi := by
        cases lo <;> cases hi <;> first | exact absurd rfl h1 | exact absurd rfl h2 | rfl
      rw [this]
      exact ⟨⟨h1, h2⟩, ⟨hlo, hhi⟩, hbits, hagree⟩

section Erase

variable [DecidableEq K]

/-- Erasing adds no key. -/
theorem mem_keys_erase {t : Trie K V} {key k : K} (hk : k ∈ (erase bit t key).keys) :
    k ∈ t.keys := by
  induction t with
  | tip => exact hk
  | leaf j x =>
    rw [erase] at hk
    split at hk
    · simp at hk
    · exact hk
  | node p lo hi ihlo ihhi =>
    rw [erase] at hk
    cases hb : bit key p with
    | false =>
      rw [hb, cond_false, keys_join, List.mem_append] at hk
      rw [keys_node, List.mem_append]
      exact hk.imp ihlo id
    | true =>
      rw [hb, cond_true, keys_join, List.mem_append] at hk
      rw [keys_node, List.mem_append]
      exact hk.imp id ihhi

/-- A trie stays well-formed under erasing. -/
theorem wf_erase {t : Trie K V} (h : Wf bit t) (key : K) : Wf bit (erase bit t key) := by
  induction t with
  | tip => trivial
  | leaf j x =>
    rw [erase]
    split <;> trivial
  | node p lo hi ihlo ihhi =>
    rw [erase]
    cases bit key p with
    | false =>
      have hsub : ∀ k ∈ (node p (erase bit lo key) hi).keys, k ∈ (node p lo hi).keys := by
        simp only [keys_node, List.mem_append]
        exact fun k hk => hk.imp mem_keys_erase id
      exact wf_join (ihlo h.lo) h.hi ⟨fun k hk => h.bit_lo (mem_keys_erase hk), h.2.2.1.2⟩
        fun j hj k hk q hq => h.agree (hsub j hj) (hsub k hk) hq
    | true =>
      have hsub : ∀ k ∈ (node p lo (erase bit hi key)).keys, k ∈ (node p lo hi).keys := by
        simp only [keys_node, List.mem_append]
        exact fun k hk => hk.imp id mem_keys_erase
      exact wf_join h.lo (ihhi h.hi) ⟨h.2.2.1.1, fun k hk => h.bit_hi (mem_keys_erase hk)⟩
        fun j hj k hk q hq => h.agree (hsub j hj) (hsub k hk) hq

end Erase

end Update

/-! ## 5. What the updates do to the denoted map -/

section Denotation

variable [DecidableEq K] {bit : K → Nat → Bool}

/-- After an overwrite the key has its new value, and the others their old one. -/
theorem lookup_put {t : Trie K V} {key : K} (hs : seek bit t key = some key) (x : V) (k : K) :
    lookup bit (put bit t key x) k = if k = key then some x else lookup bit t k := by
  induction t with
  | tip => simp [seek] at hs
  | leaf j y =>
    have hj : j = key := by simpa [seek] using hs
    subst hj
    by_cases hk : k = j <;> simp [put, lookup, hk]
  | node p lo hi ihlo ihhi =>
    cases hb : bit key p with
    | false =>
      rw [seek, hb, cond_false] at hs
      rw [put, hb, cond_false, lookup, lookup, ihlo hs]
      by_cases hk : k = key
      · subst hk
        simp [hb]
      · simp [hk]
    | true =>
      rw [seek, hb, cond_true] at hs
      rw [put, hb, cond_true, lookup, lookup, ihhi hs]
      by_cases hk : k = key
      · subst hk
        simp [hb]
      · simp [hk]

/-- A splice changes the answer at its own key only. -/
theorem lookup_splice {t : Trie K V} (h : Wf bit t) {key : K} {p : Nat}
    (hd : ∀ j ∈ t.keys, Differ bit key j p) (x : V) (k : K) :
    lookup bit (splice bit p key x t) k = if k = key then some x else lookup bit t k := by
  by_cases hk : k = key
  · subst hk
    cases hb : bit k p <;> simp [splice, lookup, hb]
  · rw [if_neg hk]
    -- a key with the new key's bit at `p` is not below the node
    have hnone : bit k p = bit key p → lookup bit t k = none := fun hb =>
      lookup_eq_none h fun hm => (hd k hm).here hb.symm
    cases hb : bit key p <;> cases hb' : bit k p <;>
      simp_all [splice, lookup]

/-- An insertion changes the answer at its own key only. -/
theorem lookup_ins {t : Trie K V} (h : Wf bit t) {key k : K} {p : Nat}
    (hs : seek bit t key = some k) (hd : Differ bit key k p) (x : V) (j : K) :
    lookup bit (ins bit t key x p) j = if j = key then some x else lookup bit t j := by
  induction t with
  | tip => simp [seek] at hs
  | leaf i y => exact lookup_splice h (differ_of_seek h hs hd (by simp)) x j
  | node q lo hi ihlo ihhi =>
    rw [ins]
    split
    case isFalse hq =>
      refine lookup_splice h (differ_of_seek h hs hd ?_) x j
      rintro q' lo' hi' ⟨⟩
      omega
    case isTrue hq =>
      cases hb : bit key q with
      | false =>
        rw [seek, hb, cond_false] at hs
        rw [cond_false, lookup, lookup, ihlo h.lo hs]
        by_cases hj : j = key
        · subst hj
          simp [hb]
        · simp [hj]
      | true =>
        rw [seek, hb, cond_true] at hs
        rw [cond_true, lookup, lookup, ihhi h.hi hs]
        by_cases hj : j = key
        · subst hj
          simp [hb]
        · simp [hj]

/-- The side to search is told by the bit of the key. -/
theorem lookup_join {p : Nat} {lo hi : Trie K V} (hlo : Wf bit lo) (hhi : Wf bit hi)
    (hbits : (∀ k ∈ lo.keys, bit k p = false) ∧ ∀ k ∈ hi.keys, bit k p = true) (k : K) :
    lookup bit (join p lo hi) k = bif bit k p then lookup bit hi k else lookup bit lo k := by
  have hl : bit k p = true → lookup bit lo k = none := fun hb =>
    lookup_eq_none hlo fun hm => by simp [hbits.1 k hm] at hb
  have hh : bit k p = false → lookup bit hi k = none := fun hb =>
    lookup_eq_none hhi fun hm => by simp [hbits.2 k hm] at hb
  cases hb : bit k p with
  | false =>
    have := hh hb
    cases lo <;> cases hi <;> simp_all [join, lookup]
  | true =>
    have := hl hb
    cases lo <;> cases hi <;> simp_all [join, lookup]

/-- Erasing changes the answer at its own key only. -/
theorem lookup_erase {t : Trie K V} (h : Wf bit t) (key k : K) :
    lookup bit (erase bit t key) k = if k = key then none else lookup bit t k := by
  induction t with
  | tip => simp [erase, lookup]
  | leaf j x =>
    by_cases hj : key = j
    · subst hj
      by_cases hk : k = key <;> simp [erase, lookup, hk]
    · by_cases hk : k = key
      · subst hk
        simp [erase, lookup, hj]
      · simp [erase, lookup, hj, hk]
  | node p lo hi ihlo ihhi =>
    rw [erase]
    cases hb : bit key p with
    | false =>
      rw [cond_false, lookup_join (wf_erase h.lo key) h.hi
        ⟨fun k hk => h.bit_lo (mem_keys_erase hk), h.2.2.1.2⟩, ihlo h.lo, lookup]
      by_cases hk : k = key
      · subst hk
        simp [hb]
      · simp [hk]
    | true =>
      rw [cond_true, lookup_join h.lo (wf_erase h.hi key)
        ⟨h.2.2.1.1, fun k hk => h.bit_hi (mem_keys_erase hk)⟩, ihhi h.hi, lookup]
      by_cases hk : k = key
      · subst hk
        simp [hb]
      · simp [hk]

end Denotation

end CritBit
