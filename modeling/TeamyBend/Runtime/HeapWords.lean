/-
# Blocks are named by their metadata

A word of metadata packs the start of a block, its class and three flags.  `Names` is what a word
says of its block whatever the marks of ownership and sealing are; a free block shows its mark in
its first cell, and nothing in the others.
-/
import TeamyBend.Runtime.BlockHeap

namespace TeamyBend.Runtime.BlockHeap

variable {m : Word} {loc loc' : Nat} {cls cls' : Nat}

/-- The marks that do not say which block a cell is of. -/
def tbMetaMarks : Word := tbMetaOwned ||| tbMetaSealed

/-- The word names a block, whatever its marks are. -/
def Names (m : Word) (loc cls : Nat) : Prop := m &&& ~~~tbMetaMarks = tbMeta loc cls

theorem tbMeta_toNat (hloc : loc ≤ locMask) (hcls : cls < nclsAll) :
    (tbMeta loc cls).toNat = (cls + 1) * 2 ^ 40 + loc := by
  simp only [locMask, nclsAll] at hloc hcls
  have hword : loc % 2 ^ 64 = loc := Nat.mod_eq_of_lt (by omega)
  have hclass : (cls + 1) % 2 ^ 64 = cls + 1 := Nat.mod_eq_of_lt (by omega)
  have hshift : ((cls + 1) <<< 40) % 2 ^ 64 = (cls + 1) <<< 40 := by
    rw [Nat.shiftLeft_eq]
    exact Nat.mod_eq_of_lt (by omega)
  rw [tbMeta, BitVec.toNat_or, BitVec.toNat_shiftLeft, BitVec.toNat_ofNat, BitVec.toNat_ofNat,
    hword, hclass, hshift, Nat.lor_comm, ← Nat.shiftLeft_add_eq_or_of_lt (by omega),
    Nat.shiftLeft_eq]

theorem metaLoc_eq (m : Word) : metaLoc m = m.toNat % 2 ^ 40 := by
  rw [metaLoc, BitVec.toNat_and]
  exact Nat.and_two_pow_sub_one_eq_mod _ 40

theorem tbMetaClass_eq (m : Word) :
    tbMetaClass m = (m.toNat / 2 ^ 40 % 2 ^ 6 + (2 ^ 32 - 1)) % 2 ^ 32 := by
  have hmask : (m >>> 40 &&& 63#64).toNat = (m.toNat >>> 40) % 2 ^ 6 := by
    rw [BitVec.toNat_and, BitVec.toNat_ushiftRight]
    exact Nat.and_two_pow_sub_one_eq_mod _ 6
  rw [tbMetaClass, hmask, Nat.shiftRight_eq_div_pow]

theorem metaLoc_tbMeta (hloc : loc ≤ locMask) (hcls : cls < nclsAll) :
    metaLoc (tbMeta loc cls) = loc := by
  rw [metaLoc_eq, tbMeta_toNat hloc hcls]
  simp only [locMask, nclsAll] at hloc hcls
  omega

theorem tbMetaClass_tbMeta (hloc : loc ≤ locMask) (hcls : cls < nclsAll) :
    tbMetaClass (tbMeta loc cls) = cls := by
  rw [tbMetaClass_eq, tbMeta_toNat hloc hcls]
  simp only [locMask, nclsAll] at hloc hcls
  omega

theorem tbMeta_injective (hloc : loc ≤ locMask) (hcls : cls < nclsAll) (hloc' : loc' ≤ locMask)
    (hcls' : cls' < nclsAll) (h : tbMeta loc cls = tbMeta loc' cls') : loc = loc' ∧ cls = cls' := by
  refine ⟨?_, ?_⟩
  · rw [← metaLoc_tbMeta hloc hcls, h, metaLoc_tbMeta hloc' hcls']
  · rw [← tbMetaClass_tbMeta hloc hcls, h, tbMetaClass_tbMeta hloc' hcls']

/-- The flags are above the start and the class. -/
theorem tbMeta_low (hloc : loc ≤ locMask) (hcls : cls < nclsAll) :
    tbMeta loc cls &&& BitVec.ofNat 64 (2 ^ 46 - 1) = tbMeta loc cls := by
  refine BitVec.eq_of_toNat_eq ?_
  rw [BitVec.toNat_and, tbMeta_toNat hloc hcls]
  simp only [locMask, nclsAll] at hloc hcls
  refine (Nat.and_two_pow_sub_one_eq_mod _ 46).trans (Nat.mod_eq_of_lt ?_)
  omega

theorem tbMeta_above (hloc : loc ≤ locMask) (hcls : cls < nclsAll) {flag : Word}
    (hflag : BitVec.ofNat 64 (2 ^ 46 - 1) &&& flag = 0#64) : tbMeta loc cls &&& flag = 0#64 := by
  rw [← tbMeta_low hloc hcls, BitVec.and_assoc, hflag, BitVec.and_zero]

theorem tbMeta_below (hloc : loc ≤ locMask) (hcls : cls < nclsAll) {kept : Word}
    (hkept : BitVec.ofNat 64 (2 ^ 46 - 1) &&& kept = BitVec.ofNat 64 (2 ^ 46 - 1)) :
    tbMeta loc cls &&& kept = tbMeta loc cls := by
  rw [← tbMeta_low hloc hcls, BitVec.and_assoc, hkept]

/-- The mark of a free block. -/
theorem tbMeta_free (loc cls : Nat) :
    (tbMeta loc cls ||| tbMetaFree) &&& tbMetaFree ≠ 0#64 := by
  intro h
  have hbit := congrArg (·.getLsbD 62) h
  simp [tbMetaFree] at hbit

namespace Names

theorem owned (hloc : loc ≤ locMask) (hcls : cls < nclsAll) :
    Names (tbMeta loc cls ||| tbMetaOwned) loc cls := by
  rw [Names, BitVec.and_or_distrib_right, tbMeta_below hloc hcls (by decide),
    show tbMetaOwned &&& ~~~tbMetaMarks = 0#64 by decide, BitVec.or_zero]

/-- A mark is set. -/
theorem set (h : Names m loc cls) {flag : Word} (hflag : flag &&& ~~~tbMetaMarks = 0#64) :
    Names (m ||| flag) loc cls := by
  rw [Names, BitVec.and_or_distrib_right, hflag, BitVec.or_zero]
  exact h

/-- A mark is cleared. -/
theorem clear (h : Names m loc cls) {flag : Word}
    (hflag : ~~~flag &&& ~~~tbMetaMarks = ~~~tbMetaMarks) : Names (m &&& ~~~flag) loc cls := by
  rw [Names, BitVec.and_assoc, hflag]
  exact h

theorem metaLoc (h : Names m loc cls) (hloc : loc ≤ locMask) (hcls : cls < nclsAll) :
    metaLoc m = loc := by
  have hmask : m &&& BitVec.ofNat 64 locMask = tbMeta loc cls &&& BitVec.ofNat 64 locMask := by
    rw [← h, BitVec.and_assoc,
      show ~~~tbMetaMarks &&& BitVec.ofNat 64 locMask = BitVec.ofNat 64 locMask by decide]
  rw [BlockHeap.metaLoc, hmask]
  exact metaLoc_tbMeta hloc hcls

theorem tbMetaClass (h : Names m loc cls) (hloc : loc ≤ locMask) (hcls : cls < nclsAll) :
    tbMetaClass m = cls := by
  have hmask : m >>> 40 &&& 63#64 = tbMeta loc cls >>> 40 &&& 63#64 := by
    rw [← h, BitVec.ushiftRight_and_distrib, BitVec.and_assoc,
      show ~~~tbMetaMarks >>> 40 &&& 63#64 = 63#64 by decide]
  rw [BlockHeap.tbMetaClass, hmask]
  exact tbMetaClass_tbMeta hloc hcls

theorem not_free (h : Names m loc cls) (hloc : loc ≤ locMask) (hcls : cls < nclsAll) :
    m &&& tbMetaFree = 0#64 := by
  rw [show tbMetaFree = ~~~tbMetaMarks &&& tbMetaFree by decide, ← BitVec.and_assoc,
    show m &&& ~~~tbMetaMarks = tbMeta loc cls from h]
  exact tbMeta_above hloc hcls (by decide)

theorem ne_zero (h : Names m loc cls) (hloc : loc ≤ locMask) (hcls : cls < nclsAll) : m ≠ 0#64 := by
  rintro rfl
  have hzero : tbMeta loc cls = 0#64 := h.symm.trans BitVec.zero_and
  have := congrArg BitVec.toNat hzero
  rw [tbMeta_toNat hloc hcls] at this
  simp at this

theorem unique (h : Names m loc cls) (h' : Names m loc' cls') (hloc : loc ≤ locMask)
    (hcls : cls < nclsAll) (hloc' : loc' ≤ locMask) (hcls' : cls' < nclsAll) :
    loc = loc' ∧ cls = cls' :=
  tbMeta_injective hloc hcls hloc' hcls' (h.symm.trans h')

end Names

end TeamyBend.Runtime.BlockHeap
