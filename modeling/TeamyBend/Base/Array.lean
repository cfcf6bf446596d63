/-
# The array functions of the Base

An `Array` is a tree with its elements at the leaves.  The functions that take an index double the
size along the left branches, keep the low bits of the index and go down by halves.  A tree is
perfect if its leaves are at one depth; there the functions are those of its list of leaves, which
has a power of two of elements.
-/
import TeamyBend.Base.Operations

namespace TeamyBend.Base

/-- `type Array<-T: Type>` -/
inductive Array (T : Type) where
  | ALeaf (value : T)
  | ANode (xs ys : Array T)
  deriving DecidableEq

namespace Array

variable {T : Type}

/-! ## 1. The functions -/

/-- `Array.size.node` -/
def sizeNode (ys : Array T) (r : Array T × U32) : Array T × U32 := (ANode r.1 ys, U32.shl r.2)

/-- `Array.size` -/
def size : Array T → Array T × U32
  | ALeaf x => (ALeaf x, U32.literal 1)
  | ANode xs ys => sizeNode ys (size xs)

/-- `Array.swap.lo` -/
def swapLo (ys : Array T) (r : Array T × T) : Array T × T := (ANode r.1 ys, r.2)

/-- `Array.swap.hi` -/
def swapHi (xs : Array T) (r : Array T × T) : Array T × T := (ANode xs r.1, r.2)

/-- `Array.swap.go` -/
def swapGo : Array T → U32 → U32 → T → Array T × T
  | ALeaf x, _, _, v => (ALeaf v, x)
  | ANode xs ys, n, i, v =>
    if U32.isLt i (U32.shr n) then swapLo ys (swapGo xs (U32.shr n) i v)
    else swapHi xs (swapGo ys (U32.shr n) (U32.sub i (U32.shr n)) v)

/-- `Array.swap.at` -/
def swapAt (i : U32) (v : T) (an : Array T × U32) : Array T × T :=
  swapGo an.1 an.2 (U32.and i (U32.sub an.2 (U32.literal 1))) v

/-- `Array.swap` -/
def swap (a : Array T) (i : U32) (v : T) : Array T × T := swapAt i v (size a)

/-- `Array.clone.node` -/
def cloneNode (cx cy : Array T × Array T) : Array T × Array T :=
  (ANode cx.1 cy.1, ANode cx.2 cy.2)

/-- `Array.clone` -/
def clone : Array T → Array T × Array T
  | ALeaf x => (ALeaf x, ALeaf x)
  | ANode xs ys => cloneNode (clone xs) (clone ys)

/-- `Array.new` -/
def new : Nat → T → Array T
  | 0, v => ALeaf v
  | p + 1, v => ANode (new p v) (new p v)

/-- `Array.set` -/
def set (a : Array T) (i : U32) (v : T) : Array T := (swap a i v).1

/-- `Array.get.go` -/
def getGo : Array T → U32 → U32 → Array T × T
  | ALeaf x, _, _ => (ALeaf x, x)
  | ANode xs ys, n, i =>
    if U32.isLt i (U32.shr n) then swapLo ys (getGo xs (U32.shr n) i)
    else swapHi xs (getGo ys (U32.shr n) (U32.sub i (U32.shr n)))

/-- `Array.get.at` -/
def getAt (i : U32) (an : Array T × U32) : Array T × T :=
  getGo an.1 an.2 (U32.and i (U32.sub an.2 (U32.literal 1)))

/-- `Array.get` -/
def get (a : Array T) (i : U32) : Array T × T := getAt i (size a)

/-- `Array.to_list.go` -/
def toListGo : Array T → List T → List T
  | ALeaf x, acc => x :: acc
  | ANode xs ys, acc => toListGo xs (toListGo ys acc)

/-- `Array.to_list` -/
def toList (a : Array T) : List T := toListGo a []

/-! ## 2. Leaves and sizes -/

theorem toListGo_eq (a : Array T) (acc : List T) : toListGo a acc = toList a ++ acc := by
  induction a generalizing acc with
  | ALeaf x => rfl
  | ANode xs ys ihx ihy =>
    unfold toList toListGo
    rw [ihx, ihy acc, ihx (toListGo ys []), ihy []]
    simp

@[simp] theorem toList_leaf (x : T) : toList (ALeaf x) = [x] := rfl

@[simp] theorem toList_node (xs ys : Array T) :
    toList (ANode xs ys) = toList xs ++ toList ys := toListGo_eq xs _

theorem toList_length_pos (a : Array T) : 0 < (toList a).length := by
  induction a with
  | ALeaf x => simp
  | ANode xs ys ihx ihy =>
    rw [toList_node, List.length_append]
    omega

/-- The depth of the first leaf. -/
def leftDepth : Array T → Nat
  | ALeaf _ => 0
  | ANode xs _ => leftDepth xs + 1

@[simp] theorem size_fst (a : Array T) : (size a).1 = a := by
  induction a with
  | ALeaf x => rfl
  | ANode xs ys ihx ihy =>
    unfold size sizeNode
    rw [ihx]

/-- The size counts the leaves of the left branch. -/
theorem size_snd (a : Array T) : (size a).2.toNat = 2 ^ leftDepth a % 2 ^ 32 := by
  induction a with
  | ALeaf x => exact U32.toNat_literal 1
  | ANode xs ys ihx ihy =>
    unfold size sizeNode leftDepth
    rw [U32.toNat_shl, ihx, Nat.mul_mod_mod, ← Nat.pow_succ']

@[simp] theorem clone_eq (a : Array T) : clone a = (a, a) := by
  induction a with
  | ALeaf x => rfl
  | ANode xs ys ihx ihy =>
    unfold clone
    rw [ihx, ihy]
    rfl

/-! ## 3. Perfect trees -/

/-- All leaves are at one depth. -/
inductive Perfect : Nat → Array T → Prop
  | leaf (x : T) : Perfect 0 (ALeaf x)
  | node {d : Nat} {xs ys : Array T} : Perfect d xs → Perfect d ys → Perfect (d + 1) (ANode xs ys)

variable {a b xs ys : Array T} {d : Nat} {n i : U32}

theorem Perfect.length (h : Perfect d a) : (toList a).length = 2 ^ d := by
  induction h with
  | leaf x => rfl
  | node hx hy ihx ihy =>
    rw [toList_node, List.length_append, ihx, ihy, Nat.pow_succ]
    omega

theorem Perfect.leftDepth_eq (h : Perfect d a) : leftDepth a = d := by
  induction h with
  | leaf x => rfl
  | node hx hy ihx ihy => rw [leftDepth, ihx]

/-- The step of a descent: half of the size, and the half that has the index. -/
theorem half_step (hn : n.toNat = 2 ^ (d + 1)) (hi : i.toNat < 2 ^ (d + 1)) :
    (U32.shr n).toNat = 2 ^ d ∧ (U32.isLt i (U32.shr n) = true → i.toNat < 2 ^ d) ∧
      (¬U32.isLt i (U32.shr n) = true → 2 ^ d ≤ i.toNat ∧
        (U32.sub i (U32.shr n)).toNat = i.toNat - 2 ^ d) := by
  have hshr : (U32.shr n).toNat = 2 ^ d := by
    rw [U32.toNat_shr, hn, Nat.pow_succ]
    omega
  have hlt : U32.isLt i (U32.shr n) = true ↔ i.toNat < 2 ^ d := by
    rw [← hshr, U32.isLt, Cmp.isLt_iff]
    exact Word.cmp_lt_iff _ _
  refine ⟨hshr, hlt.1, fun hge => ?_⟩
  have hle := Nat.le_of_not_lt (mt hlt.2 hge)
  refine ⟨hle, ?_⟩
  have := i.toNat_lt
  rw [U32.toNat_sub, hshr]
  omega

theorem getGo_perfect (h : Perfect d a) (hn : n.toNat = 2 ^ d) (hi : i.toNat < 2 ^ d) :
    ∃ x, (toList a)[i.toNat]? = some x ∧ getGo a n i = (a, x) := by
  induction h generalizing n i with
  | leaf x =>
    refine ⟨x, ?_, rfl⟩
    obtain hzero : i.toNat = 0 := by omega
    rw [hzero]
    rfl
  | @node d xs ys hx hy ihx ihy =>
    obtain ⟨hshr, hlow, hhigh⟩ := half_step hn hi
    unfold getGo
    rw [toList_node]
    split
    · rename_i hlt
      obtain ⟨x, hget, hgo⟩ := ihx hshr (hlow hlt)
      refine ⟨x, ?_, by rw [hgo]; rfl⟩
      rwa [List.getElem?_append_left (hx.length ▸ hlow hlt)]
    · rename_i hge
      obtain ⟨hle, hsub⟩ := hhigh hge
      have hlt : (U32.sub i (U32.shr n)).toNat < 2 ^ d := by
        rw [Nat.pow_succ] at hi
        omega
      obtain ⟨x, hget, hgo⟩ := ihy hshr hlt
      refine ⟨x, ?_, by rw [hgo]; rfl⟩
      rwa [List.getElem?_append_right (hx.length ▸ hle), hx.length, ← hsub]

theorem swapGo_perfect (h : Perfect d a) (hn : n.toNat = 2 ^ d) (hi : i.toNat < 2 ^ d) (v : T) :
    Perfect d (swapGo a n i v).1 ∧ toList (swapGo a n i v).1 = (toList a).set i.toNat v ∧
      (toList a)[i.toNat]? = some (swapGo a n i v).2 := by
  induction h generalizing n i with
  | leaf x =>
    obtain hzero : i.toNat = 0 := by omega
    rw [hzero]
    exact ⟨.leaf v, rfl, rfl⟩
  | @node d xs ys hx hy ihx ihy =>
    obtain ⟨hshr, hlow, hhigh⟩ := half_step hn hi
    unfold swapGo
    rw [toList_node]
    split
    · rename_i hlt
      obtain ⟨hperfect, hset, hold⟩ := ihx hshr (hlow hlt)
      have hlength := hx.length ▸ hlow hlt
      refine ⟨.node hperfect hy, ?_, ?_⟩
      · rw [swapLo, toList_node, hset, List.set_append_left _ _ hlength]
      · rwa [List.getElem?_append_left hlength]
    · rename_i hge
      obtain ⟨hle, hsub⟩ := hhigh hge
      have hlt : (U32.sub i (U32.shr n)).toNat < 2 ^ d := by
        rw [Nat.pow_succ] at hi
        omega
      obtain ⟨hperfect, hset, hold⟩ := ihy hshr hlt
      have hlength := hx.length ▸ hle
      refine ⟨.node hx hperfect, ?_, ?_⟩
      · rw [swapHi, toList_node, hset, List.set_append_right _ _ hlength, hx.length, hsub]
      · rwa [List.getElem?_append_right hlength, hx.length, ← hsub]

/-- The size of a perfect tree, and the index that is left of an index. -/
theorem mask_perfect (h : Perfect d a) (hd : d < 32) (i : U32) :
    (size a).2.toNat = 2 ^ d ∧
      (U32.and i (U32.sub (size a).2 (U32.literal 1))).toNat = i.toNat % 2 ^ d := by
  have hlt : 2 ^ d < 2 ^ 32 := Nat.pow_lt_pow_right (by omega) hd
  have hsize : (size a).2.toNat = 2 ^ d := by
    rw [size_snd, h.leftDepth_eq, Nat.mod_eq_of_lt hlt]
  have hone : (U32.literal 1).toNat = 1 := U32.toNat_literal 1
  have hpos := Nat.two_pow_pos d
  refine ⟨hsize, ?_⟩
  have hsub : (U32.sub (size a).2 (U32.literal 1)).toNat = 2 ^ d - 1 := by
    rw [U32.toNat_sub, hsize, hone]
    omega
  rw [U32.toNat_and, hsub, Nat.and_two_pow_sub_one_eq_mod]

/-- **`Array.get` of a perfect tree.** -/
theorem get_perfect (h : Perfect d a) (hd : d < 32) (i : U32) :
    ∃ x, (toList a)[i.toNat % 2 ^ d]? = some x ∧ get a i = (a, x) := by
  obtain ⟨hsize, hmask⟩ := mask_perfect h hd i
  have hlt := Nat.mod_lt i.toNat (Nat.two_pow_pos d)
  have hget := getGo_perfect h hsize (hmask ▸ hlt)
  unfold get getAt
  rwa [size_fst, ← hmask]

/-- **`Array.swap` of a perfect tree.** -/
theorem swap_perfect (h : Perfect d a) (hd : d < 32) (i : U32) (v : T) :
    Perfect d (swap a i v).1 ∧ toList (swap a i v).1 = (toList a).set (i.toNat % 2 ^ d) v ∧
      (toList a)[i.toNat % 2 ^ d]? = some (swap a i v).2 := by
  obtain ⟨hsize, hmask⟩ := mask_perfect h hd i
  have hlt := Nat.mod_lt i.toNat (Nat.two_pow_pos d)
  have hswap := swapGo_perfect h hsize (hmask ▸ hlt) v
  unfold swap swapAt
  rwa [size_fst, ← hmask]

end Array

end TeamyBend.Base
