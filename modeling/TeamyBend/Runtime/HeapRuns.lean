/-
# Every run keeps the partition

What the program holds is what it allocated and did not give back.  These are the live blocks, so
the accounts are their totals; a span that the heap accepts is inside one of them.
-/
import TeamyBend.Runtime.HeapPartition

namespace TeamyBend.Runtime.BlockHeap

open Library (Tiles Chain filter_change sum_filter_le)

variable {e : Env} {h h' : Heap} {blocks : List Block} {status : Nat → Status}
  {free : Nat → List Nat} {held due : List Block} {b c : Block} {loc cls count : Nat}
  {s s' : Status}

/-! ## 1. Spans -/

theorem tbSpanLocked_ok (hok : tbSpanLocked e loc count h = .ok ()) :
    heapOff ≤ loc ∧ loc < h.bump ∧ h.metadata loc ≠ 0#64 ∧ h.metadata loc &&& tbMetaFree = 0#64 ∧
      loc + count ≤ metaLoc (h.metadata loc) + 2 ^ tbMetaClass (h.metadata loc) := by
  unfold tbSpanLocked at hok
  split at hok
  · cases hok
  · rename_i hrange
    dsimp only at hok
    split at hok
    · cases hok
    · rename_i hmetadata
      split at hok
      · cases hok
      · rename_i hsize
        simp only [not_or, not_not, Nat.not_lt, Nat.not_le] at hrange hmetadata hsize
        exact ⟨hrange.2.2.1, hrange.2.2.2, hmetadata.1, hmetadata.2.1, by omega⟩

/-- An accepted span is inside one live block. -/
theorem Partition.of_span (hp : Partition h blocks status free)
    (hok : tbSpanLocked e loc count h = .ok ()) :
    ∃ b ∈ blocks, status b.start = .live ∧ b.Has loc ∧ loc + count ≤ b.start + b.size := by
  obtain ⟨hlo, hhi, hzero, hfree, hsize⟩ := tbSpanLocked_ok hok
  obtain ⟨b, hb, hloc⟩ := hp.covers hlo hhi
  have hlive : status b.start = .live := by
    by_contra hstatus
    -- A cell of a block that is not live has no metadata, or the mark of a free block.
    have hcell : h.metadata loc = 0#64 ∨
        h.metadata loc = tbMeta b.start b.cls ||| tbMetaFree := by
      by_cases heq : loc = b.start
      · subst heq
        cases hcase : status b.start with
        | live => exact absurd hcase hstatus
        | reserved => exact hp.pending b hb hcase
        | free => exact .inr (hp.marked b hb hcase)
      · exact .inl (hp.inner b hb hstatus loc hloc heq)
    rcases hcell with hcell | hcell
    · exact hzero hcell
    · exact tbMeta_free b.start b.cls (hcell ▸ hfree)
  have hnames := hp.live b hb hlive loc hloc
  rw [hnames.metaLoc (hp.start_le hb) (hp.fits b hb),
    hnames.tbMetaClass (hp.start_le hb) (hp.fits b hb)] at hsize
  exact ⟨b, hb, hlive, hloc, hsize⟩

/-- What passes as an allocation of a class is a live block of that class. -/
theorem Partition.of_allocation (hp : Partition h blocks status free)
    (hok : tbAllocationLocked e loc cls h = .ok ()) :
    ⟨loc, cls⟩ ∈ blocks ∧ status loc = .live := by
  unfold tbAllocationLocked at hok
  split at hok
  · cases hok
  · rename_i hspan
    split at hok
    · cases hok
    · rename_i hmatch
      simp only [not_or, not_not, Nat.not_le] at hmatch
      obtain ⟨b, hb, hlive, hloc, -⟩ := hp.of_span hspan
      have hbound : loc ≤ locMask := by
        have := (hp.within hb hloc).2
        have := hp.bounded
        omega
      obtain ⟨hstart, hcls⟩ := (hp.live b hb hlive loc hloc).unique hmatch.2 (hp.start_le hb)
        (hp.fits b hb) hbound hmatch.1
      subst hstart hcls
      exact ⟨hb, hlive⟩

/-! ## 2. What is held -/

/-- The blocks with a status. -/
def having (status : Nat → Status) (s : Status) (blocks : List Block) : List Block :=
  blocks.filter fun b => status b.start = s

/-- The accounts are those of the blocks that are held, with those that are reserved. -/
structure Kept (h : Heap) (blocks : List Block) (status : Nat → Status) (free : Nat → List Nat)
    (held due : List Block) : Prop extends Partition h blocks status free where
  live_held : held.Perm (having status .live blocks)
  reserved_due : due.Perm (having status .reserved blocks)
  liveWords : h.liveWords = (held.map Block.size).sum + (due.map Block.size).sum
  liveBlocks : h.liveBlocks = held.length + due.length

namespace Partition

theorem gained (hp : Partition h blocks status free) (hb : b ∈ blocks) (hs : status b.start ≠ s) :
    (having (Function.update status b.start s) s blocks).Perm (b :: having status s blocks) := by
  refine filter_change hp.nodup hb (by simp) (by simp [hs]) fun c hc hne => ?_
  have hstart : c.start ≠ b.start := fun heq => hne (hp.start_injective hc hb heq)
  simp [Function.update_of_ne hstart]

theorem lost (hp : Partition h blocks status free) (hb : b ∈ blocks) (hs : status b.start = s)
    (hne : s' ≠ s) :
    (having status s blocks).Perm
      (b :: having (Function.update status b.start s') s blocks) := by
  refine filter_change hp.nodup hb (by simp [hs]) (by simp [hne]) fun c hc hother => ?_
  have hstart : c.start ≠ b.start := fun heq => hother (hp.start_injective hc hb heq)
  simp [Function.update_of_ne hstart]

theorem same (hs : status loc ≠ s) (hne : s' ≠ s) :
    having (Function.update status loc s') s blocks = having status s blocks := by
  refine List.filter_congr fun c _ => ?_
  by_cases heq : c.start = loc
  · simp [heq, hs, hne]
  · simp [Function.update_of_ne heq]

/-- The blocks with a status, when there is a new block. -/
theorem appended (hp : Partition h blocks status free) :
    having (Function.update status h.bump s) s' (blocks ++ [⟨h.bump, cls⟩]) =
      having status s' blocks ++ if s = s' then [⟨h.bump, cls⟩] else [] := by
  have hold : having (Function.update status h.bump s) s' blocks = having status s' blocks := by
    refine List.filter_congr fun c hc => ?_
    have := (hp.within hc c.has_start).2
    simp [Function.update_of_ne (show c.start ≠ h.bump by omega)]
  unfold having at hold ⊢
  rw [List.filter_append, hold]
  by_cases heq : s = s' <;> simp [heq]

end Partition

namespace Kept

theorem live_of_held (hk : Kept h blocks status free held due) (hb : b ∈ held) :
    b ∈ blocks ∧ status b.start = .live := by
  simpa [having] using hk.live_held.subset hb

theorem reserved_of_due (hk : Kept h blocks status free held due) (hb : b ∈ due) :
    b ∈ blocks ∧ status b.start = .reserved := by
  simpa [having] using hk.reserved_due.subset hb

theorem held_of_live (hk : Kept h blocks status free held due) (hb : b ∈ blocks)
    (hlive : status b.start = .live) : b ∈ held :=
  hk.live_held.mem_iff.2 (List.mem_filter.2 ⟨hb, by simpa using hlive⟩)

/-- The accounts are below the bump pointer. -/
theorem words_lt (hk : Kept h blocks status free held due) :
    heapOff + (held.map Block.size).sum + (due.map Block.size).sum ≤ h.bump := by
  have hheld := (hk.live_held.map Block.size).sum_nat
  have hdue := (hk.reserved_due.map Block.size).sum_nat
  have hle := @sum_filter_le Block blocks (fun b => status b.start = .live)
    (fun b => status b.start = .reserved) Block.size fun b _ hlive => by
      simp only [decide_eq_true_eq] at hlive
      simp [hlive]
  have hsum := hk.tiles.sum_size
  unfold having at hheld hdue
  omega

end Kept

theorem length_le_words (blocks : List Block) : blocks.length ≤ (blocks.map Block.size).sum := by
  induction blocks with
  | nil => simp
  | cons b blocks ih =>
    have := b.size_pos
    simp only [List.length_cons, List.map_cons, List.sum_cons]
    omega

namespace Kept

/-- The accounts fit their words. -/
theorem accounts_lt (hk : Kept h blocks status free held due) :
    h.liveWords < 2 ^ 40 ∧ h.liveBlocks < 2 ^ 40 := by
  have hwords := hk.words_lt
  have hbounded := hk.bounded
  have hheld := length_le_words held
  have hdue := length_le_words due
  rw [hk.liveWords, hk.liveBlocks]
  simp only [locMask, heapOff] at hwords hbounded
  omega

theorem account (h : Heap) (words n : Nat) (hwords : h.liveWords + words < 2 ^ 64)
    (hblocks : h.liveBlocks + n < 2 ^ 64) :
    h.account words n =
      { h with liveWords := h.liveWords + words, liveBlocks := h.liveBlocks + n } := by
  rw [Heap.account, Nat.mod_eq_of_lt hwords, Nat.mod_eq_of_lt hblocks]

/-- The head of a list is reserved. -/
theorem popped (hk : Kept h blocks status free held due) (hcls : cls < nclsAll)
    (hhead : h.freeLists cls ≠ 0) :
    Kept ((h.pop cls).account (2 ^ cls) 1) blocks
      (Function.update status (h.freeLists cls) .reserved)
      (Function.update free cls (free cls).tail) held (⟨h.freeLists cls, cls⟩ :: due) := by
  obtain ⟨hmem, hstatus⟩ := hk.head_mem hcls hhead
  obtain ⟨hwords, hblocks⟩ := hk.accounts_lt
  have hsize : 2 ^ cls ≤ 2 ^ 32 := Nat.pow_le_pow_right (by omega) (Nat.le_of_lt hcls)
  rw [account (h.pop cls) _ _ (show h.liveWords + 2 ^ cls < 2 ^ 64 by omega)
    (show h.liveBlocks + 1 < 2 ^ 64 by omega)]
  have hp := hk.toPartition.popped hcls hhead
  refine { hp with
    live_held := ?_, reserved_due := ?_, liveWords := ?_, liveBlocks := ?_ }
  · rw [Partition.same (by simp [hstatus]) (by simp)]
    exact hk.live_held
  · exact (hk.reserved_due.cons _).trans (hk.gained hmem (by simp [hstatus])).symm
  · have := hk.liveWords
    show h.liveWords + 2 ^ cls = _
    simp only [List.map_cons, List.sum_cons, Block.size]
    omega
  · have := hk.liveBlocks
    show h.liveBlocks + 1 = _
    simp only [List.length_cons]
    omega

/-- A reserved block is added at the bump pointer. -/
theorem extended (hk : Kept h blocks status free held due) (hcls : cls < nclsAll)
    (hroom : h.bump + 2 ^ cls ≤ h.capacity) :
    Kept ((h.grow cls).account (2 ^ cls) 1) (blocks ++ [⟨h.bump, cls⟩])
      (Function.update status h.bump .reserved) free held (⟨h.bump, cls⟩ :: due) := by
  obtain ⟨hwords, hblocks⟩ := hk.accounts_lt
  have hsize : 2 ^ cls ≤ 2 ^ 32 := Nat.pow_le_pow_right (by omega) (Nat.le_of_lt hcls)
  rw [account (h.grow cls) _ _ (show h.liveWords + 2 ^ cls < 2 ^ 64 by omega)
    (show h.liveBlocks + 1 < 2 ^ 64 by omega)]
  have hp := hk.toPartition.extended hcls hroom
  refine { hp with
    live_held := ?_, reserved_due := ?_, liveWords := ?_, liveBlocks := ?_ }
  · rw [hk.appended]
    simpa using hk.live_held
  · rw [hk.appended]
    simpa using (hk.reserved_due.cons _).trans (List.perm_append_singleton _ _).symm
  · have := hk.liveWords
    show h.liveWords + 2 ^ cls = _
    simp only [List.map_cons, List.sum_cons, Block.size]
    omega
  · have := hk.liveBlocks
    show h.liveBlocks + 1 = _
    simp only [List.length_cons]
    omega

/-- A reserved block is initialized. -/
theorem prepared (hk : Kept h blocks status free held due) (hb : b ∈ due) :
    Kept (h.prepare b.start b.cls) blocks (Function.update status b.start .live) free
      (b :: held) (due.erase b) := by
  obtain ⟨hmem, hstatus⟩ := hk.reserved_of_due hb
  have hperm := List.perm_cons_erase hb
  refine { hk.toPartition.prepared hmem hstatus with
    live_held := ?_, reserved_due := ?_, liveWords := ?_, liveBlocks := ?_ }
  · exact (hk.live_held.cons _).trans (hk.gained hmem (by simp [hstatus])).symm
  · exact (hperm.symm.trans (hk.reserved_due.trans (hk.lost hmem hstatus (by simp)))).cons_inv
  · have hsum := (hperm.map Block.size).sum_nat
    have := hk.liveWords
    simp only [List.map_cons, List.sum_cons] at hsum ⊢
    exact this.trans (by omega)
  · have hlength := hperm.length_eq
    have := hk.liveBlocks
    simp only [List.length_cons] at hlength ⊢
    exact this.trans (by omega)

/-- What is held is given back. -/
theorem released (hk : Kept h blocks status free held due) (hb : b ∈ held) :
    Kept
      { h.release b.start b.cls with
        liveWords := (h.liveWords + (2 ^ 64 - 2 ^ b.cls)) % 2 ^ 64
        liveBlocks := (h.liveBlocks + (2 ^ 64 - 1)) % 2 ^ 64 } blocks
      (Function.update status b.start .free)
      (Function.update free b.cls (b.start :: free b.cls)) (held.erase b) due := by
  obtain ⟨hmem, hstatus⟩ := hk.live_of_held hb
  obtain ⟨hwords, hblocks⟩ := hk.accounts_lt
  have hperm := List.perm_cons_erase hb
  have hp := hk.toPartition.freed hmem hstatus
  refine { hp with
    live_held := ?_, reserved_due := ?_, liveWords := ?_, liveBlocks := ?_ }
  · exact (hperm.symm.trans (hk.live_held.trans (hk.lost hmem hstatus (by simp)))).cons_inv
  · rw [Partition.same (by simp [hstatus]) (by simp)]
    exact hk.reserved_due
  · have hsum := (hperm.map Block.size).sum_nat
    have := hk.liveWords
    have hpos := b.size_pos
    simp only [List.map_cons, List.sum_cons, Block.size] at hsum this hpos ⊢
    omega
  · have hlength := hperm.length_eq
    have := hk.liveBlocks
    simp only [List.length_cons] at hlength ⊢
    omega

end Kept

/-! ## 3. Calls -/

variable {backed : Bool} {message : String}

theorem heapAlloc_error (hfail : heapAlloc e cls backed h = (.error message, h')) : h' = h := by
  unfold heapAlloc heapAllocLocked at hfail
  dsimp only at hfail
  split at hfail
  · exact (Prod.mk.inj hfail).2.symm
  · split at hfail
    · split at hfail
      · exact (Prod.mk.inj hfail).2.symm
      · cases (Prod.mk.inj hfail).1
    · split at hfail
      · exact (Prod.mk.inj hfail).2.symm
      · split at hfail
        · exact (Prod.mk.inj hfail).2.symm
        · cases (Prod.mk.inj hfail).1

/-- An allocation takes the head of the list, or a block at the bump pointer. -/
theorem heapAlloc_ok (hok : heapAlloc e cls backed h = (.ok loc, h')) :
    cls < nclsAll ∧
      ((h.freeLists cls ≠ 0 ∧ loc = h.freeLists cls ∧
          h' = ((h.pop cls).prepare loc cls).account (2 ^ cls) 1) ∨
        (loc = h.bump ∧ h.bump + 2 ^ cls ≤ h.capacity ∧
          h' = ((h.grow cls).prepare loc cls).account (2 ^ cls) 1)) := by
  unfold heapAlloc heapAllocLocked at hok
  dsimp only at hok
  split at hok
  · cases (Prod.mk.inj hok).1
  · rename_i hvalid
    simp only [not_or, Nat.not_le] at hvalid
    refine ⟨hvalid.2.2, ?_⟩
    split at hok
    · rename_i hhead
      split at hok
      · cases (Prod.mk.inj hok).1
      · obtain ⟨hloc, hheap⟩ := Prod.mk.inj hok
        cases hloc
        exact .inl ⟨hhead, rfl, hheap.symm⟩
    · split at hok
      · cases (Prod.mk.inj hok).1
      · rename_i hroom
        split at hok
        · cases (Prod.mk.inj hok).1
        · obtain ⟨hloc, hheap⟩ := Prod.mk.inj hok
          cases hloc
          exact .inr ⟨rfl, by omega, hheap.symm⟩

/-- A block that is allocated is held. -/
theorem Kept.alloc (hk : Kept h blocks status free held due)
    (hok : heapAlloc e cls backed h = (.ok loc, h')) :
    ∃ blocks' status' free', Kept h' blocks' status' free' (⟨loc, cls⟩ :: held) due := by
  obtain ⟨hcls, ⟨hhead, rfl, rfl⟩ | ⟨rfl, hroom, rfl⟩⟩ := heapAlloc_ok hok
  · have hstep := (hk.popped hcls hhead).prepared List.mem_cons_self
    rw [List.erase_cons_head] at hstep
    exact ⟨_, _, _, hstep⟩
  · have hstep := (hk.extended hcls hroom).prepared List.mem_cons_self
    rw [List.erase_cons_head] at hstep
    exact ⟨_, _, _, hstep⟩

theorem heapFree_error (hfail : heapFree e cls loc h = (.error message, h')) : h' = h := by
  unfold heapFree heapFreeLocked at hfail
  split at hfail
  · exact (Prod.mk.inj hfail).2.symm
  · cases (Prod.mk.inj hfail).1

/-- What is given back was held. -/
theorem Kept.giveBack (hk : Kept h blocks status free held due)
    (hok : heapFree e cls loc h = (.ok (), h')) :
    ⟨loc, cls⟩ ∈ held ∧
      ∃ blocks' status' free', Kept h' blocks' status' free' (held.erase ⟨loc, cls⟩) due := by
  unfold heapFree heapFreeLocked at hok
  split at hok
  · cases (Prod.mk.inj hok).1
  · rename_i hallocation
    obtain ⟨hmem, hlive⟩ := hk.of_allocation hallocation
    have hheld := hk.held_of_live hmem hlive
    obtain rfl := (Prod.mk.inj hok).2
    exact ⟨hheld, _, _, _, hk.released hheld⟩

/-- The flags of one live block, or a cell of one, change. -/
theorem Kept.changed (hk : Kept h blocks status free held due) {metadata : Nat → Word}
    {cells : Nat → Nat} (hb : b ∈ blocks) (hlive : status b.start = .live)
    (hnames : ∀ loc, Names (h.metadata loc) b.start b.cls → Names (metadata loc) b.start b.cls)
    (hother : ∀ loc, ¬ b.Has loc → metadata loc = h.metadata loc ∧ cells loc = h.cells loc) :
    Kept { h with metadata := metadata, cells := cells } blocks status free held due := by
  have hp : Partition { h with metadata := metadata, cells := cells } blocks status free := by
    refine hk.toPartition.changed rfl rfl rfl ?_ ?_ ?_
    · intro c hc _ loc hloc hnamed
      by_cases hbloc : b.Has loc
      · obtain rfl := hk.unique hb hc hbloc hloc
        exact hnames loc hnamed
      · rw [show Heap.metadata { h with metadata := metadata, cells := cells } loc = h.metadata loc
          from (hother loc hbloc).1]
        exact hnamed
    · intro loc hloc
      exact (hother loc (hloc b hb hlive)).1
    · intro c hc hfree
      refine (hother c.start (hk.not_has hb hc (fun heq => ?_) c.has_start)).2
      rw [heq, hlive] at hfree
      cases hfree
  exact { hp with
    live_held := hk.live_held
    reserved_due := hk.reserved_due
    liveWords := hk.liveWords
    liveBlocks := hk.liveBlocks }

theorem Kept.store {value : Nat} {r : Except String Unit}
    (hk : Kept h blocks status free held due)
    (hcall : BlockHeap.store e loc value h = (r, h')) : Kept h' blocks status free held due := by
  unfold BlockHeap.store at hcall
  split at hcall
  · exact (Prod.mk.inj hcall).2 ▸ hk
  · rename_i hspan
    obtain ⟨b, hb, hlive, hloc, -⟩ := hk.of_span hspan
    refine (Prod.mk.inj hcall).2 ▸ hk.changed hb hlive (fun _ h => h) fun at_ hat => ⟨rfl, ?_⟩
    refine Function.update_of_ne ?_ _ _
    rintro rfl
    exact hat hloc

theorem Kept.setSealed {sealing : Bool} {r : Except String Unit}
    (hk : Kept h blocks status free held due)
    (hcall : tbSetSealed e loc sealing h = (r, h')) : Kept h' blocks status free held due := by
  unfold tbSetSealed at hcall
  split at hcall
  · exact (Prod.mk.inj hcall).2 ▸ hk
  · rename_i hspan
    dsimp only at hcall
    split at hcall
    · exact (Prod.mk.inj hcall).2 ▸ hk
    · obtain ⟨b, hb, hlive, hloc, -⟩ := hk.of_span hspan
      refine (Prod.mk.inj hcall).2 ▸ hk.changed hb hlive (fun at_ hnames => ?_) fun at_ hat =>
        ⟨Function.update_of_ne ?_ _ _, rfl⟩
      · by_cases heq : at_ = loc
        · subst heq
          rw [Function.update_self]
          split
          · exact hnames.set (by decide)
          · exact hnames.clear (by decide)
        · rwa [Function.update_of_ne heq]
      · rintro rfl
        exact hat hloc

theorem Kept.mark {change : Word → Word} {r : Except String Unit}
    (hk : Kept h blocks status free held due)
    (hchange : ∀ m at_ cls, Names m at_ cls → Names (change m) at_ cls)
    (hcall : BlockHeap.mark change e loc count h = (r, h')) :
    Kept h' blocks status free held due := by
  unfold BlockHeap.mark at hcall
  split at hcall
  · exact (Prod.mk.inj hcall).2 ▸ hk
  · rename_i hspan
    split at hcall
    · exact (Prod.mk.inj hcall).2 ▸ hk
    · obtain ⟨b, hb, hlive, hloc, hcount⟩ := hk.of_span hspan
      refine (Prod.mk.inj hcall).2 ▸ hk.changed hb hlive (fun at_ hnames => ?_) fun at_ hat =>
        ⟨if_neg fun hrange => ?_, rfl⟩
      · unfold overRange
        split
        · exact hchange _ _ _ hnames
        · exact hnames
      · exact hat ⟨Nat.le_trans hloc.1 hrange.1, Nat.lt_of_lt_of_le hrange.2 hcount⟩

/-! ## 4. Runs -/

namespace Holding

/-- What is held are the live blocks, and none is reserved. -/
def Sound (w : Holding) : Prop :=
  ∃ blocks status free, Kept w.heap blocks status free w.held []

variable {w : Holding}

theorem Sound.step (hw : w.Sound) (e : Env) (request : Request) : (w.serve e request).Sound := by
  obtain ⟨blocks, status, free, hk⟩ := hw
  cases request with
  | alloc cls backed =>
    rcases hcall : heapAlloc e cls backed w.heap with ⟨message | loc, heap⟩ <;>
      simp only [serve, hcall]
    · rw [heapAlloc_error hcall]
      exact ⟨_, _, _, hk⟩
    · exact hk.alloc hcall
  | free cls loc =>
    rcases hcall : heapFree e cls loc w.heap with ⟨message | ok, heap⟩ <;>
      simp only [serve, hcall, after]
    · rw [heapFree_error hcall]
      exact ⟨_, _, _, hk⟩
    · exact (hk.giveBack hcall).2
  | store loc value =>
    rcases hcall : BlockHeap.store e loc value w.heap with ⟨message | ok, heap⟩ <;>
      simp only [serve, hcall, after] <;> exact ⟨_, _, _, hk.store hcall⟩
  | setSealed loc sealing =>
    rcases hcall : tbSetSealed e loc sealing w.heap with ⟨message | ok, heap⟩ <;>
      simp only [serve, hcall, after] <;> exact ⟨_, _, _, hk.setSealed hcall⟩
  | markRaw loc count =>
    have hclear : ∀ m at_ cls, Names m at_ cls → Names (m &&& ~~~tbMetaOwned) at_ cls :=
      fun _ _ _ hnames => hnames.clear (by decide)
    rcases hcall : tbMarkRaw e loc count w.heap with ⟨message | ok, heap⟩ <;>
      simp only [serve, hcall, after] <;> exact ⟨_, _, _, hk.mark hclear hcall⟩
  | markOwned loc count =>
    have hset : ∀ m at_ cls, Names m at_ cls → Names (m ||| tbMetaOwned) at_ cls :=
      fun _ _ _ hnames => hnames.set (by decide)
    rcases hcall : tbMarkOwned e loc count w.heap with ⟨message | ok, heap⟩ <;>
      simp only [serve, hcall, after] <;> exact ⟨_, _, _, hk.mark hset hcall⟩

theorem Sound.run (hw : w.Sound) (e : Env) (requests : List Request) :
    (w.run e requests).Sound := by
  induction requests generalizing w with
  | nil => exact hw
  | cons request requests ih => exact ih (hw.step e request)

end Holding

/-- A heap without a block. -/
theorem kept_startHeap {memory heapMeta capacity : Nat}
    (hstart : startHeap memory heapMeta capacity = .ok h) :
    Kept h [] (fun _ => .free) (fun _ => []) [] [] := by
  unfold startHeap at hstart
  split at hstart
  · cases hstart
  · rename_i hcapacity
    simp only [not_or, Nat.not_le, Nat.not_lt] at hcapacity
    cases hstart
    exact {
      tiles := rfl
      fits := by simp
      bounded := ⟨Nat.le_of_lt hcapacity.1, hcapacity.2.1⟩
      live := by simp
      inner := by simp
      marked := by simp
      pending := by simp
      chains := fun _ _ => ⟨rfl, by simp⟩
      listed := by simp
      unused := fun _ _ => rfl
      live_held := .nil
      reserved_due := .nil
      liveWords := rfl
      liveBlocks := rfl }

/-- The cells below the bump pointer are cut into blocks of the classes there are; each is held and
named in all its cells, or it is once on the list of its class and on no other. -/
structure Partitioned (h : Heap) (blocks held : List Block) (free : Nat → List Nat) : Prop where
  tiles : Tiles Block.start Block.size heapOff blocks h.bump
  fits : ∀ b ∈ blocks, b.cls < nclsAll
  chains : ∀ cls < nclsAll, Chain h.cells 0 (h.freeLists cls) (free cls)
  named : ∀ b ∈ held, b ∈ blocks ∧ ∀ loc, b.Has loc →
    metaLoc (h.metadata loc) = b.start ∧ tbMetaClass (h.metadata loc) = b.cls
  once : ∀ b ∈ blocks, ∀ cls < nclsAll,
    (free cls).count b.start = if b ∉ held ∧ cls = b.cls then 1 else 0
  only : ∀ cls < nclsAll, ∀ loc ∈ free cls, ⟨loc, cls⟩ ∈ blocks
  liveWords : h.liveWords = (held.map Block.size).sum
  liveBlocks : h.liveBlocks = held.length

theorem Kept.partitioned (hk : Kept h blocks status free held []) :
    Partitioned h blocks held free where
  tiles := hk.tiles
  fits := hk.fits
  chains := hk.chains
  named b hb := by
    obtain ⟨hmem, hlive⟩ := hk.live_of_held hb
    refine ⟨hmem, fun loc hloc => ?_⟩
    have hnames := hk.live b hmem hlive loc hloc
    exact ⟨hnames.metaLoc (hk.start_le hmem) (hk.fits b hmem),
      hnames.tbMetaClass (hk.start_le hmem) (hk.fits b hmem)⟩
  once b hb cls hcls := by
    have hreserved : status b.start ≠ .reserved := by
      intro hstatus
      have : b ∈ having status .reserved blocks := List.mem_filter.2 ⟨hb, by simpa using hstatus⟩
      exact absurd (hk.reserved_due.mem_iff.2 this) List.not_mem_nil
    have hheld : b ∉ held ↔ status b.start = .free := by
      refine ⟨fun hnot => ?_, fun hfree hmem => ?_⟩
      · cases hstatus : status b.start with
        | live => exact absurd (hk.held_of_live hb hstatus) hnot
        | reserved => exact absurd hstatus hreserved
        | free => rfl
      · have := (hk.live_of_held hmem).2
        rw [hfree] at this
        cases this
    have hlisted : b.start ∈ free cls ↔ b ∉ held ∧ cls = b.cls := by
      rw [hk.listed cls hcls, hheld]
      refine ⟨fun hfound => ⟨hfound.2, ?_⟩, fun hfound => ⟨hfound.2 ▸ hb, hfound.1⟩⟩
      exact congrArg Block.cls (hk.start_injective hfound.1 hb rfl)
    split
    · rename_i hfound
      exact List.count_eq_one_of_mem (hk.chains cls hcls).nodup (hlisted.2 hfound)
    · rename_i hfound
      exact List.count_eq_zero_of_not_mem (hfound ∘ hlisted.1)
  only cls hcls loc hloc := (hk.of_listed hcls hloc).1
  liveWords := by simpa using hk.liveWords
  liveBlocks := by simpa using hk.liveBlocks

/-- Blocks that are held have no cell in common. -/
theorem Kept.apart (hk : Kept h blocks status free held due) :
    held.Pairwise fun b c => ∀ loc, b.Has loc → ¬ c.Has loc := by
  have hnodup : held.Nodup := hk.live_held.nodup_iff.2 (hk.nodup.filter _)
  refine hnodup.imp_of_mem fun hb hc hne loc hbloc hcloc => hne ?_
  exact hk.unique (hk.live_of_held hb).1 (hk.live_of_held hc).1 hbloc hcloc

/-- After any requests the blocks partition the heap, the accounts are those of the blocks that
are held, these are apart, and the spans that are accepted are inside them. -/
theorem heap_partitioned {memory heapMeta capacity : Nat}
    (hstart : startHeap memory heapMeta capacity = .ok h) (e : Env) (requests : List Request) :
    let w := Holding.run e ⟨h, []⟩ requests
    (∃ blocks free, Partitioned w.heap blocks w.held free) ∧
      (w.held.Pairwise fun b c => ∀ loc, b.Has loc → ¬ c.Has loc) ∧
      ∀ loc count, tbSpan e loc count w.heap = .ok () →
        ∃ b ∈ w.held, b.Has loc ∧ loc + count ≤ b.start + b.size := by
  intro w
  have hsound : Holding.Sound ⟨h, []⟩ := ⟨_, _, _, kept_startHeap hstart⟩
  obtain ⟨blocks, status, free, hk⟩ := hsound.run e requests
  refine ⟨⟨blocks, free, hk.partitioned⟩, hk.apart, fun loc count hspan => ?_⟩
  obtain ⟨b, hb, hlive, hloc, hcount⟩ := hk.of_span hspan
  exact ⟨b, hk.held_of_live hb hlive, hloc, hcount⟩

/-- A block is given back, and the next request of its class gets it again. -/
theorem heap_partitioned_again :
    ∃ h, startHeap 8 8 64 = .ok h ∧
      (Holding.run ⟨8⟩ ⟨h, []⟩ [.alloc 1 true, .alloc 0 true, .free 1 1, .alloc 1 true]).held =
        [⟨1, 1⟩, ⟨3, 0⟩] ∧
      ∃ blocks free, Partitioned
        (Holding.run ⟨8⟩ ⟨h, []⟩ [.alloc 1 true, .alloc 0 true, .free 1 1, .alloc 1 true]).heap
        blocks [⟨1, 1⟩, ⟨3, 0⟩] free := by
  refine ⟨_, rfl, rfl, ?_⟩
  exact (@heap_partitioned _ 8 8 64 rfl ⟨8⟩
    [.alloc 1 true, .alloc 0 true, .free 1 1, .alloc 1 true]).1

end TeamyBend.Runtime.BlockHeap
