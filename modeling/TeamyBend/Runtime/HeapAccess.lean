/-
# What a program may do with the blocks it holds

`Heap.Holds` says which blocks a program holds.  A call on one of them is accepted, and what it
changes is inside that block (`Beside`); an allocation adds a block that is apart from the others.
-/
import Mathlib.Data.Multiset.AddSub
import TeamyBend.Runtime.HeapRuns

namespace TeamyBend.Runtime.BlockHeap

/-- The program holds these blocks. -/
def Heap.Holds (h : Heap) (held : Multiset Block) : Prop :=
  h.heapMeta ≠ 0 ∧ ∃ (blocks : List Block) (status : Nat → Status) (free : Nat → List Nat)
    (list : List Block), (list : Multiset Block) = held ∧ Kept h blocks status free list []

/-- The heap is the same outside of a block. -/
structure Beside (b : Block) (h h' : Heap) : Prop where
  memory : h'.memory = h.memory
  cells : ∀ loc, ¬b.Has loc → h'.cells loc = h.cells loc
  metadata : ∀ loc, ¬b.Has loc → h'.metadata loc = h.metadata loc

/-- `tb_heap_meta[at] & TB_META_OWNED` -/
def Heap.owned (h : Heap) (loc : Nat) : Bool := h.metadata loc &&& tbMetaOwned != 0#64

/-- `tb_heap_meta[at] & TB_META_SEALED` -/
def Heap.sealed (h : Heap) (loc : Nat) : Bool := h.metadata loc &&& tbMetaSealed != 0#64

theorem Beside.trans {b : Block} {h h' h'' : Heap} (hb : Beside b h h') (hb' : Beside b h' h'') :
    Beside b h h'' where
  memory := hb'.memory.trans hb.memory
  cells loc hloc := (hb'.cells loc hloc).trans (hb.cells loc hloc)
  metadata loc hloc := (hb'.metadata loc hloc).trans (hb.metadata loc hloc)

theorem Beside.owned {b : Block} {h h' : Heap} (hb : Beside b h h') {loc : Nat}
    (hloc : ¬b.Has loc) : h'.owned loc = h.owned loc := by
  rw [Heap.owned, Heap.owned, hb.metadata loc hloc]

theorem Beside.sealed {b : Block} {h h' : Heap} (hb : Beside b h h') {loc : Nat}
    (hloc : ¬b.Has loc) : h'.sealed loc = h.sealed loc := by
  rw [Heap.sealed, Heap.sealed, hb.metadata loc hloc]

/-! ## 1. Classes -/

section Classes

variable {count cls fuel k : Nat}

theorem le_clsFitFrom (h : count ≤ 2 ^ (cls + fuel)) : count ≤ 2 ^ clsFitFrom count fuel cls := by
  induction fuel generalizing cls with
  | zero => exact h
  | succ fuel ih =>
    rw [clsFitFrom]
    split
    · exact ih (by rwa [Nat.add_assoc, Nat.add_comm 1])
    · next hfits => exact Nat.le_of_not_lt hfits

theorem clsFitFrom_le (hcount : count ≤ 2 ^ k) (hcls : cls ≤ k) :
    clsFitFrom count fuel cls ≤ k := by
  induction fuel generalizing cls with
  | zero => exact hcls
  | succ fuel ih =>
    rw [clsFitFrom]
    split
    · next hlt =>
      exact ih ((Nat.pow_lt_pow_iff_right (by decide)).1 (Nat.lt_of_lt_of_le hlt hcount))
    · exact hcls

/-- A block for at most so many cells is large enough, and not larger than need be. -/
theorem clsFit_spec (hcount : count ≤ 2 ^ k) (hk : k < 32) :
    count ≤ 2 ^ clsFit (UInt32.ofNat count) ∧ clsFit (UInt32.ofNat count) ≤ k := by
  have hlt : count < 2 ^ 32 := Nat.lt_of_le_of_lt hcount (Nat.pow_lt_pow_right (by decide) hk)
  have hword : (UInt32.ofNat count).toNat = count := UInt32.toNat_ofNat_of_lt' hlt
  rw [clsFit, hword]
  exact ⟨le_clsFitFrom (by omega), clsFitFrom_le hcount (Nat.zero_le k)⟩

end Classes

namespace Heap.Holds

variable {h h' : Heap} {held : Multiset Block} {b c : Block} {loc cls count value : Nat}

/-! ## 2. The blocks -/

theorem perm_mem {list : List Block} (hlist : (list : Multiset Block) = held) (hb : b ∈ held) :
    b ∈ list :=
  Multiset.mem_coe.1 (hlist ▸ hb)

theorem cls_lt (hh : h.Holds held) (hb : b ∈ held) : b.cls < nclsAll := by
  obtain ⟨-, blocks, status, free, list, hlist, hk⟩ := hh
  exact hk.fits b (hk.live_of_held (perm_mem hlist hb)).1

theorem within (hh : h.Holds held) (hb : b ∈ held) (hloc : b.Has loc) :
    heapOff ≤ loc ∧ loc < h.bump ∧ loc ≤ locMask := by
  obtain ⟨-, blocks, status, free, list, hlist, hk⟩ := hh
  have hin := hk.within (hk.live_of_held (perm_mem hlist hb)).1 hloc
  have := hk.bounded
  exact ⟨hin.1, hin.2, by omega⟩

theorem start_pos (hh : h.Holds held) (hb : b ∈ held) : 0 < b.start :=
  (hh.within hb b.has_start).1

theorem start_le (hh : h.Holds held) (hb : b ∈ held) : b.start ≤ locMask :=
  (hh.within hb b.has_start).2.2

theorem nodup (hh : h.Holds held) : held.Nodup := by
  obtain ⟨-, blocks, status, free, list, rfl, hk⟩ := hh
  exact Multiset.coe_nodup.2 (hk.live_held.nodup_iff.2 (hk.nodup.filter _))

/-- Two blocks that share a cell are the same. -/
theorem unique (hh : h.Holds held) (hb : b ∈ held) (hc : c ∈ held) (hbloc : b.Has loc)
    (hcloc : c.Has loc) : b = c := by
  obtain ⟨-, blocks, status, free, list, hlist, hk⟩ := hh
  exact hk.unique (hk.live_of_held (perm_mem hlist hb)).1
    (hk.live_of_held (perm_mem hlist hc)).1 hbloc hcloc

/-- A block in hand is apart from the others. -/
theorem apart (hh : h.Holds (b ::ₘ held)) (hc : c ∈ held) (hcloc : c.Has loc) : ¬b.Has loc := by
  intro hbloc
  have hbc := hh.unique (Multiset.mem_cons_self b held) (Multiset.mem_cons_of_mem hc) hbloc hcloc
  exact (Multiset.nodup_cons.1 hh.nodup).1 (hbc ▸ hc)

theorem names (hh : h.Holds held) (hb : b ∈ held) (hloc : b.Has loc) :
    Names (h.metadata loc) b.start b.cls := by
  obtain ⟨-, blocks, status, free, list, hlist, hk⟩ := hh
  obtain ⟨hmem, hlive⟩ := hk.live_of_held (perm_mem hlist hb)
  exact hk.live b hmem hlive loc hloc

theorem owner (hh : h.Holds held) (hb : b ∈ held) (hloc : b.Has loc) :
    metaLoc (h.metadata loc) = b.start :=
  (hh.names hb hloc).metaLoc (hh.start_le hb) (hh.cls_lt hb)

/-- A program starts without a block. -/
theorem holds_startHeap {memory heapMeta capacity : Nat} (hmeta : heapMeta ≠ 0)
    (hstart : startHeap memory heapMeta capacity = .ok h) : h.Holds 0 := by
  refine ⟨?_, [], _, _, [], rfl, kept_startHeap hstart⟩
  unfold startHeap at hstart
  split at hstart
  · cases hstart
  · cases hstart
    exact hmeta

/-- A program that holds no block has none that is live. -/
theorem nothing_live (hh : h.Holds 0) : h.liveBlocks = 0 ∧ h.liveWords = 0 := by
  obtain ⟨-, blocks, status, free, list, hlist, hk⟩ := hh
  obtain rfl : list = [] := (Multiset.coe_eq_zero list).1 hlist
  exact ⟨hk.liveBlocks, hk.liveWords⟩

/-! ## 3. Checks -/

theorem span (hh : h.Holds held) (hb : b ∈ held) (hloc : b.Has loc)
    (hcount : loc + count ≤ b.start + b.size) : tbSpan ⟨h.memory⟩ loc count h = .ok () := by
  have hnames := hh.names hb hloc
  have hstart := hh.start_le hb
  have hcls := hh.cls_lt hb
  obtain ⟨hlo, hhi, -⟩ := hh.within hb hloc
  have howner := hnames.metaLoc hstart hcls
  have hclass := hnames.tbMetaClass hstart hcls
  have hfirst := (hh.within hb b.has_start).1
  rw [tbSpan, tbSpanLocked, if_neg (by
    rintro (hmem | hmeta | hoff | hbump)
    · exact hmem rfl
    · exact hh.1 hmeta
    · omega
    · omega)]
  dsimp only
  rw [howner, hclass, if_neg (by
    rintro (hzero | hfree | hoff | hlt | hlarge)
    · exact hnames.ne_zero hstart hcls hzero
    · exact hfree (hnames.not_free hstart hcls)
    · omega
    · exact absurd hloc.1 (by omega)
    · omega), if_neg]
  obtain ⟨hle, hlt⟩ := hloc
  simp only [Block.size] at hlt hcount
  omega

theorem allocation (hh : h.Holds held) (hb : b ∈ held) :
    tbAllocationLocked ⟨h.memory⟩ b.start b.cls h = .ok () := by
  have hsize := b.size_pos
  have hspan := hh.span hb b.has_start (show b.start + 1 ≤ b.start + b.size by omega)
  rw [tbSpan] at hspan
  rw [tbAllocationLocked, hspan]
  refine if_neg (not_or.2 ⟨Nat.not_le.2 (hh.cls_lt hb), fun hne => hne ?_⟩)
  exact hh.names hb b.has_start

/-! ## 4. Changes -/

/-- A block is given back. -/
theorem free (hh : h.Holds (b ::ₘ held)) :
    ∃ h', heapFree ⟨h.memory⟩ b.cls b.start h = (.ok (), h') ∧ h'.Holds held ∧ Beside b h h' := by
  have hok := hh.allocation (Multiset.mem_cons_self b held)
  obtain ⟨hmeta, blocks, status, free, list, hlist, hk⟩ := hh
  have hcall : heapFree ⟨h.memory⟩ b.cls b.start h = (.ok (), { h.release b.start b.cls with
      liveWords := (h.liveWords + (2 ^ 64 - 2 ^ b.cls)) % 2 ^ 64
      liveBlocks := (h.liveBlocks + (2 ^ 64 - 1)) % 2 ^ 64 }) := by
    rw [heapFree, heapFreeLocked, hok]
  obtain ⟨-, blocks', status', free', hk'⟩ := hk.giveBack hcall
  have hne {loc : Nat} (hloc : ¬b.Has loc) : loc ≠ b.start := by
    rintro rfl
    exact hloc b.has_start
  refine ⟨_, hcall, ⟨hmeta, blocks', status', free', _, ?_, hk'⟩, rfl, fun loc hloc => ?_,
    fun loc hloc => ?_⟩
  · show ((list.erase b : List Block) : Multiset Block) = held
    rw [← Multiset.coe_erase, hlist, Multiset.erase_cons_head]
  · exact Function.update_of_ne (hne hloc) _ _
  · exact (Function.update_of_ne (hne hloc) _ _).trans (if_neg hloc)

/-- The cells of a new block are owned, and the block is not sealed. -/
theorem new_marks {l : Nat} (hh : h.Holds held) (hb : (⟨loc, cls⟩ : Block) ∈ held)
    (hmeta : h.metadata l = tbMeta loc cls ||| tbMetaOwned) :
    h.owned l = true ∧ h.sealed l = false := by
  rw [Heap.owned, Heap.sealed, hmeta]
  constructor
  · have hmark : (tbMeta loc cls ||| tbMetaOwned) &&& tbMetaOwned = tbMetaOwned := by
      ext i
      simpa using Or.inr
    rw [hmark]
    rfl
  · have hplain : tbMeta loc cls &&& tbMetaSealed = 0#64 :=
      tbMeta_above (hh.start_le hb) (hh.cls_lt hb) (by decide)
    have hmark : (tbMeta loc cls ||| tbMetaOwned) &&& tbMetaSealed = 0#64 := by
      rw [BitVec.and_or_distrib_right, hplain]
      rfl
    rw [hmark]
    rfl

/-- Why there is no block of a class: none is free, and there is no room for one more, or the system
does not give its pages. -/
inductive Refused (h : Heap) (cls : Nat) (backed : Bool) : String → Prop
  | budget (hnone : h.freeLists cls = 0) (hfull : h.capacity < h.bump + 2 ^ cls) :
    Refused h cls backed "VM allocation budget exhausted"
  | commitment (hnone : h.freeLists cls = 0) (hroom : h.bump + 2 ^ cls ≤ h.capacity)
    (hbacked : backed = false) : Refused h cls backed "host corpus commitment failed"

/-- A block is allocated; its cells are zero, and all are owned. -/
theorem alloc (hh : h.Holds held) {backed : Bool}
    (hcall : heapAlloc ⟨h.memory⟩ cls backed h = (.ok loc, h')) :
    h'.Holds (⟨loc, cls⟩ ::ₘ held) ∧ Beside ⟨loc, cls⟩ h h' ∧
      ∀ l, (⟨loc, cls⟩ : Block).Has l →
        h'.cells l = 0 ∧ h'.metadata l = tbMeta loc cls ||| tbMetaOwned := by
  obtain ⟨hmeta, blocks, status, free, list, hlist, hk⟩ := hh
  obtain ⟨blocks', status', free', hk'⟩ := hk.alloc hcall
  have hprepared : ∃ h₀ : Heap, h' = (h₀.prepare loc cls).account (2 ^ cls) 1 ∧
      h₀.cells = h.cells ∧ h₀.metadata = h.metadata ∧ h₀.memory = h.memory ∧
      h₀.heapMeta = h.heapMeta := by
    obtain ⟨-, ⟨-, -, hheap⟩ | ⟨-, -, hheap⟩⟩ := heapAlloc_ok hcall
    · exact ⟨h.pop cls, hheap, rfl, rfl, rfl, rfl⟩
    · exact ⟨h.grow cls, hheap, rfl, rfl, rfl, rfl⟩
  obtain ⟨h₀, rfl, hcells, hmetadata, hmemory, hheapMeta⟩ := hprepared
  refine ⟨⟨hheapMeta ▸ hmeta, blocks', status', free', _, ?_, hk'⟩,
    ⟨hmemory, fun l hl => ?_, fun l hl => ?_⟩, fun l hl => ⟨if_pos hl, if_pos hl⟩⟩
  · rw [← hlist, Multiset.cons_coe]
  · exact (if_neg hl).trans (congrFun hcells l)
  · exact (if_neg hl).trans (congrFun hmetadata l)

/-- An allocation looks for a free block, then for room, then for its pages. -/
theorem heapAlloc_eq (hh : h.Holds held) (hcls : cls < nclsAll) {backed : Bool} :
    (heapAlloc ⟨h.memory⟩ cls backed h).1 =
      if h.freeLists cls ≠ 0 then .ok (h.freeLists cls)
      else if h.capacity < h.bump + 2 ^ cls then .error "VM allocation budget exhausted"
      else if backed then .ok h.bump else .error "host corpus commitment failed" := by
  obtain ⟨hmeta, blocks, status, free, list, hlist, hk⟩ := hh
  have hvalid : ¬(h.memory ≠ h.memory ∨ h.heapMeta = 0 ∨ nclsAll ≤ cls) :=
    not_or.2 ⟨fun hne => hne rfl, not_or.2 ⟨hmeta, Nat.not_le.2 hcls⟩⟩
  rw [heapAlloc, heapAllocLocked, if_neg hvalid]
  dsimp only
  split
  · next hhead =>
    -- The head of a list is a free block of that class.
    obtain ⟨hmem, hstatus⟩ := hk.head_mem hcls hhead
    have hbump := (hk.within hmem (Block.has_start _)).2
    rw [if_neg (not_or.2 ⟨Nat.not_le.2 hbump, fun hne => hne (hk.marked _ hmem hstatus)⟩)]
  · have hbounds := hk.bounded
    have hlarge : h.capacity ≤ (2 ^ 64 - 1) / 8 := by
      have : locMask ≤ (2 ^ 64 - 1) / 8 := by decide
      omega
    have hfull : h.capacity < 2 ^ cls ∨ h.capacity - 2 ^ cls < h.bump ↔
        h.capacity < h.bump + 2 ^ cls := by omega
    simp only [hfull]
    split
    · rfl
    · rw [tbHeapCommit, if_neg (not_or.2 ⟨by omega, by omega⟩)]
      cases backed <;> rfl

/-- **An allocation is refused for want of room only.** -/
theorem alloc_error_iff (hh : h.Holds held) (hcls : cls < nclsAll) {backed : Bool}
    {message : String} :
    (heapAlloc ⟨h.memory⟩ cls backed h).1 = .error message ↔ Refused h cls backed message := by
  rw [hh.heapAlloc_eq hcls]
  constructor
  · intro herror
    split at herror
    · cases herror
    next hnone =>
    rw [not_not] at hnone
    split at herror
    · next hfull =>
      cases herror
      exact .budget hnone hfull
    next hroom =>
    cases backed with
    | true => cases herror
    | false =>
      cases herror
      exact .commitment hnone (Nat.le_of_not_lt hroom) rfl
  · intro hrefused
    cases hrefused with
    | budget hnone hfull => rw [if_neg (not_not.2 hnone), if_pos hfull]
    | commitment hnone hroom hbacked =>
      rw [if_neg (not_not.2 hnone), if_neg (Nat.not_lt.2 hroom), hbacked]
      rfl

/-- A cell is written. -/
theorem store (hh : h.Holds held) (hb : b ∈ held) (hloc : b.Has loc) :
    BlockHeap.store ⟨h.memory⟩ loc value h =
        (.ok (), { h with cells := Function.update h.cells loc value }) ∧
      { h with cells := Function.update h.cells loc value }.Holds held := by
  have hspan : tbSpan ⟨h.memory⟩ loc 1 h = .ok () :=
    hh.span hb hloc hloc.2
  have hcall : BlockHeap.store ⟨h.memory⟩ loc value h =
      (.ok (), { h with cells := Function.update h.cells loc value }) := by
    rw [BlockHeap.store, hspan]
  obtain ⟨hmeta, blocks, status, free, list, hlist, hk⟩ := hh
  exact ⟨hcall, hmeta, blocks, status, free, list, hlist, hk.store hcall⟩

/-- A block is marked as sealed, or as not sealed. -/
theorem setSealed (hh : h.Holds held) (hb : b ∈ held) (sealing : Bool) :
    ∃ h', tbSetSealed ⟨h.memory⟩ b.start sealing h = (.ok (), h') ∧ h'.Holds held ∧
      Beside b h h' := by
  have hspan : tbSpanLocked ⟨h.memory⟩ b.start 1 h = .ok () := hh.span hb b.has_start b.has_start.2
  have howner := hh.owner hb b.has_start
  have hcall : tbSetSealed ⟨h.memory⟩ b.start sealing h = (.ok (), { h with
      metadata := Function.update h.metadata b.start (if sealing then
        h.metadata b.start ||| tbMetaSealed else h.metadata b.start &&& ~~~tbMetaSealed) }) := by
    rw [tbSetSealed, hspan]
    exact if_neg fun hne => hne howner
  obtain ⟨hmeta, blocks, status, free, list, hlist, hk⟩ := hh
  refine ⟨_, hcall, ⟨hmeta, blocks, status, free, list, hlist, hk.setSealed hcall⟩,
    ⟨rfl, fun _ _ => rfl, fun l hl => Function.update_of_ne ?_ _ _⟩⟩
  rintro rfl
  exact hl b.has_start

/-- A block that is sealed keeps its cells and their marks. -/
theorem seals (hh : h.Holds held) (hb : b ∈ held)
    (hcall : tbSetSealed ⟨h.memory⟩ b.start true h = (.ok (), h')) :
    h'.cells = h.cells ∧ h'.owned = h.owned ∧ h'.sealed b.start = true ∧
      ∀ l, h.sealed l = true → h'.sealed l = true := by
  have hspan : tbSpanLocked ⟨h.memory⟩ b.start 1 h = .ok () := hh.span hb b.has_start b.has_start.2
  rw [tbSetSealed, hspan] at hcall
  dsimp only at hcall
  rw [if_neg (not_not.2 (hh.owner hb b.has_start)), if_pos rfl] at hcall
  cases (Prod.mk.inj hcall).2
  -- The seal is another bit than the mark of a cell that is owned.
  have hmark (w : Word) : (w ||| tbMetaSealed) &&& tbMetaOwned = w &&& tbMetaOwned := by
    rw [BitVec.and_or_distrib_right, show tbMetaSealed &&& tbMetaOwned = 0#64 by decide,
      BitVec.or_zero]
  have hseal (w : Word) : (w ||| tbMetaSealed) &&& tbMetaSealed = tbMetaSealed := by
    ext i
    simpa using Or.inr
  refine ⟨rfl, ?_, ?_, fun l hl => ?_⟩
  · funext l
    simp only [Heap.owned, Function.update_apply]
    split
    · next heq => rw [hmark, heq]
    · rfl
  · simp only [Heap.sealed, Function.update_self, hseal]
    rfl
  · simp only [Heap.sealed, Function.update_apply]
    split
    · rw [hseal]
      rfl
    · exact hl

/-- Cells of a block that is not sealed are marked as raw. -/
theorem markRaw (hh : h.Holds held) (hb : b ∈ held) (hloc : b.Has loc)
    (hcount : loc + count ≤ b.start + b.size) (hopen : h.sealed b.start = false) :
    ∃ h', tbMarkRaw ⟨h.memory⟩ loc count h = (.ok (), h') ∧ h'.Holds held ∧ Beside b h h' ∧
      h'.cells = h.cells := by
  have hspan : tbSpanLocked ⟨h.memory⟩ loc count h = .ok () := hh.span hb hloc hcount
  have howner := hh.owner hb hloc
  have hunsealed : ¬h.metadata (metaLoc (h.metadata loc)) &&& tbMetaSealed ≠ 0#64 := by
    rw [howner]
    simpa [Heap.sealed] using hopen
  have hcall : tbMarkRaw ⟨h.memory⟩ loc count h = (.ok (), { h with
      metadata := overRange h.metadata loc count (· &&& ~~~tbMetaOwned) }) := by
    rw [tbMarkRaw, mark, hspan]
    exact if_neg hunsealed
  obtain ⟨hmeta, blocks, status, free, list, hlist, hk⟩ := hh
  have hclear : ∀ m at_ cls, Names m at_ cls → Names (m &&& ~~~tbMetaOwned) at_ cls :=
    fun _ _ _ hnames => hnames.clear (by decide)
  refine ⟨_, hcall, ⟨hmeta, blocks, status, free, list, hlist, hk.mark hclear hcall⟩,
    ⟨rfl, fun _ _ => rfl, fun l hl => if_neg fun hrange => hl ?_⟩, rfl⟩
  exact ⟨Nat.le_trans hloc.1 hrange.1, Nat.lt_of_lt_of_le hrange.2 hcount⟩

/-- A cell that is written is in its block. -/
theorem beside_store (hloc : b.Has loc) :
    Beside b h { h with cells := Function.update h.cells loc value } := by
  refine ⟨rfl, fun l hl => Function.update_of_ne ?_ _ _, fun _ _ => rfl⟩
  rintro rfl
  exact hl hloc

end Heap.Holds

end TeamyBend.Runtime.BlockHeap
