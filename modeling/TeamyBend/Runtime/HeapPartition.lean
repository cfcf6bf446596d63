/-
# The blocks partition the heap

The cells below the bump pointer are cut into blocks.  The metadata of a live block names it in
every cell; a free block is marked in its first cell, has no other metadata, and is on the list of
its class.  A block can also be reserved: it is on no list, and is not initialized.

What a call does to the blocks is one of four steps, and each keeps the invariant: the head of a
list is reserved, a block is added at the bump pointer, a reserved block is initialized, a live one
is given back.
-/
import TeamyBend.Library.LinkedList
import TeamyBend.Library.Tiling
import TeamyBend.Runtime.HeapWords

namespace TeamyBend.Runtime.BlockHeap

open Library (Tiles Chain filter_change sum_filter_le)

/-! ## 1. The invariant -/

/-- What is done with a block. -/
inductive Status where
  | live | reserved | free
  deriving DecidableEq

/-- A cell of the block. -/
def Block.Has (b : Block) (loc : Nat) : Prop := b.start ≤ loc ∧ loc < b.start + b.size

theorem Block.size_pos (b : Block) : 0 < b.size := Nat.two_pow_pos _

theorem Block.has_start (b : Block) : b.Has b.start :=
  ⟨Nat.le_refl _, Nat.lt_add_of_pos_right b.size_pos⟩

/-- The blocks of a heap, with the status of each and with the lists of the free ones. -/
structure Partition (h : Heap) (blocks : List Block) (status : Nat → Status)
    (free : Nat → List Nat) : Prop where
  tiles : Tiles Block.start Block.size heapOff blocks h.bump
  fits : ∀ b ∈ blocks, b.cls < nclsAll
  bounded : h.bump ≤ h.capacity ∧ h.capacity ≤ locMask
  live : ∀ b ∈ blocks, status b.start = .live → ∀ loc, b.Has loc →
    Names (h.metadata loc) b.start b.cls
  inner : ∀ b ∈ blocks, status b.start ≠ .live → ∀ loc, b.Has loc → loc ≠ b.start →
    h.metadata loc = 0#64
  marked : ∀ b ∈ blocks, status b.start = .free →
    h.metadata b.start = tbMeta b.start b.cls ||| tbMetaFree
  pending : ∀ b ∈ blocks, status b.start = .reserved →
    h.metadata b.start = 0#64 ∨ h.metadata b.start = tbMeta b.start b.cls ||| tbMetaFree
  chains : ∀ cls < nclsAll, Chain h.cells 0 (h.freeLists cls) (free cls)
  listed : ∀ cls < nclsAll, ∀ loc, loc ∈ free cls ↔ ⟨loc, cls⟩ ∈ blocks ∧ status loc = .free
  unused : ∀ loc, h.bump ≤ loc → h.metadata loc = 0#64

variable {e : Env} {h h' : Heap} {blocks : List Block} {status : Nat → Status}
  {free : Nat → List Nat} {b c : Block} {loc cls count : Nat}

namespace Partition

theorem within (hp : Partition h blocks status free) (hb : b ∈ blocks) (hloc : b.Has loc) :
    heapOff ≤ loc ∧ loc < h.bump := by
  have := hp.tiles.within hb
  obtain ⟨hlo, hhi⟩ := hloc
  omega

theorem start_le (hp : Partition h blocks status free) (hb : b ∈ blocks) :
    b.start ≤ locMask := by
  have := (hp.within hb b.has_start).2
  have := hp.bounded
  omega

theorem start_ne (hp : Partition h blocks status free) (hb : b ∈ blocks) : b.start ≠ 0 := by
  have := (hp.within hb b.has_start).1
  simp only [heapOff] at this
  omega

theorem covers (hp : Partition h blocks status free) (hlo : heapOff ≤ loc) (hhi : loc < h.bump) :
    ∃ b ∈ blocks, b.Has loc :=
  hp.tiles.covers hlo hhi

theorem unique (hp : Partition h blocks status free) (hb : b ∈ blocks) (hc : c ∈ blocks)
    (hbloc : b.Has loc) (hcloc : c.Has loc) : b = c :=
  hp.tiles.unique hb hc hbloc hcloc

theorem start_injective (hp : Partition h blocks status free) (hb : b ∈ blocks) (hc : c ∈ blocks)
    (heq : b.start = c.start) : b = c :=
  hp.unique hb hc b.has_start (heq ▸ c.has_start)

theorem nodup (hp : Partition h blocks status free) : blocks.Nodup :=
  hp.tiles.nodup fun b _ => b.size_pos

/-- The block that a start on a list is of. -/
theorem of_listed (hp : Partition h blocks status free) (hcls : cls < nclsAll)
    (hloc : loc ∈ free cls) : ⟨loc, cls⟩ ∈ blocks ∧ status loc = .free :=
  (hp.listed cls hcls loc).1 hloc

/-- What a list begins with. -/
theorem head (hp : Partition h blocks status free) (hcls : cls < nclsAll)
    (hhead : h.freeLists cls ≠ 0) :
    ∃ rest, free cls = h.freeLists cls :: rest ∧
      Chain h.cells 0 (h.cells (h.freeLists cls)) rest :=
  (hp.chains cls hcls).uncons hhead

theorem head_mem (hp : Partition h blocks status free) (hcls : cls < nclsAll)
    (hhead : h.freeLists cls ≠ 0) :
    ⟨h.freeLists cls, cls⟩ ∈ blocks ∧ status (h.freeLists cls) = .free := by
  obtain ⟨rest, hfree, -⟩ := hp.head hcls hhead
  exact hp.of_listed hcls (hfree ▸ List.mem_cons_self)

/-! ## 2. Steps -/

/-- The flags of live blocks, and cells that are not the start of a free block, may change. -/
theorem changed (hp : Partition h blocks status free) (hlists : h'.freeLists = h.freeLists)
    (hbump : h'.bump = h.bump) (hcapacity : h'.capacity = h.capacity)
    (hlive : ∀ b ∈ blocks, status b.start = .live → ∀ loc, b.Has loc →
      Names (h.metadata loc) b.start b.cls → Names (h'.metadata loc) b.start b.cls)
    (hother : ∀ loc, (∀ b ∈ blocks, status b.start = .live → ¬ b.Has loc) →
      h'.metadata loc = h.metadata loc)
    (hcells : ∀ b ∈ blocks, status b.start = .free → h'.cells b.start = h.cells b.start) :
    Partition h' blocks status free := by
  have hsame : ∀ b ∈ blocks, status b.start ≠ .live → ∀ loc, b.Has loc →
      h'.metadata loc = h.metadata loc := by
    intro b hb hstatus loc hloc
    refine hother loc fun c hc hlive hcloc => hstatus ?_
    rw [hp.unique hb hc hloc hcloc]
    exact hlive
  exact {
    tiles := hbump ▸ hp.tiles
    fits := hp.fits
    bounded := by
      rw [hbump, hcapacity]
      exact hp.bounded
    live := fun b hb hstatus loc hloc =>
      hlive b hb hstatus loc hloc (hp.live b hb hstatus loc hloc)
    inner := fun b hb hstatus loc hloc hne =>
      (hsame b hb hstatus loc hloc).trans (hp.inner b hb hstatus loc hloc hne)
    marked := fun b hb hstatus =>
      (hsame b hb (by simp [hstatus]) _ b.has_start).trans (hp.marked b hb hstatus)
    pending := fun b hb hstatus => by
      rw [hsame b hb (by simp [hstatus]) _ b.has_start]
      exact hp.pending b hb hstatus
    chains := fun cls hcls => by
      rw [hlists]
      refine (hp.chains cls hcls).congr fun loc hloc => ?_
      obtain ⟨hmem, hstatus⟩ := hp.of_listed hcls hloc
      exact hcells _ hmem hstatus
    listed := hp.listed
    unused := fun loc hloc => by
      rw [hbump] at hloc
      refine (hother loc fun b hb _ hbloc => ?_).trans (hp.unused loc hloc)
      have := (hp.within hb hbloc).2
      omega }

/-- The head of a list is reserved. -/
theorem popped (hp : Partition h blocks status free) (hcls : cls < nclsAll)
    (hhead : h.freeLists cls ≠ 0) :
    Partition (h.pop cls) blocks (Function.update status (h.freeLists cls) .reserved)
      (Function.update free cls (free cls).tail) := by
  obtain ⟨rest, hfree, hchain⟩ := hp.head hcls hhead
  obtain ⟨hmem, hstatus⟩ := hp.head_mem hcls hhead
  have hfirst : (h.pop cls).freeLists cls = h.cells (h.freeLists cls) :=
    Function.update_self _ _ _
  have hlater : ∀ other, other ≠ cls → (h.pop cls).freeLists other = h.freeLists other :=
    fun _ hne => Function.update_of_ne hne _ _
  generalize h.freeLists cls = loc at *
  have hnodup : (loc :: rest).Nodup := hfree ▸ (hp.chains cls hcls).nodup
  have hother : ∀ b ∈ blocks, b.start ≠ loc →
      Function.update status loc .reserved b.start = status b.start :=
    fun b _ hne => Function.update_of_ne hne _ _
  refine { hp with
    live := ?_, inner := ?_, marked := ?_, pending := ?_, chains := ?_, listed := ?_ }
  · intro b hb hlive
    by_cases heq : b.start = loc
    · rw [heq, Function.update_self] at hlive
      cases hlive
    · rw [hother b hb heq] at hlive
      exact hp.live b hb hlive
  · intro b hb hlive
    by_cases heq : b.start = loc
    · refine hp.inner b hb ?_
      rw [heq, hstatus]
      simp
    · rw [hother b hb heq] at hlive
      exact hp.inner b hb hlive
  · intro b hb hmarked
    by_cases heq : b.start = loc
    · rw [heq, Function.update_self] at hmarked
      cases hmarked
    · rw [hother b hb heq] at hmarked
      exact hp.marked b hb hmarked
  · intro b hb hpending
    by_cases heq : b.start = loc
    · exact .inr (hp.marked b hb (heq ▸ hstatus))
    · rw [hother b hb heq] at hpending
      exact hp.pending b hb hpending
  · intro other hother
    by_cases heq : other = cls
    · subst heq
      rw [hfirst, Function.update_self, hfree, List.tail_cons]
      exact hchain
    · rw [hlater other heq, Function.update_of_ne heq]
      exact hp.chains other hother
  · intro other hlt at_
    by_cases heq : other = cls
    · subst heq
      rw [Function.update_self, hfree, List.tail_cons]
      by_cases hat : at_ = loc
      · subst hat
        simp [(List.nodup_cons.1 hnodup).1]
      · rw [Function.update_of_ne hat, ← hp.listed other hlt, hfree]
        simp [hat]
    · rw [Function.update_of_ne heq, hp.listed other hlt]
      by_cases hat : at_ = loc
      · subst hat
        rw [Function.update_self]
        refine ⟨fun hfound => ?_, fun hfound => by cases hfound.2⟩
        have := hp.start_injective hfound.1 hmem rfl
        exact absurd (Block.mk.inj this).2 heq
      · rw [Function.update_of_ne hat]

theorem grow_eq (hp : Partition h blocks status free) (hroom : h.bump + 2 ^ cls ≤ h.capacity) :
    h.grow cls = { h with bump := h.bump + 2 ^ cls } := by
  have hcapacity := hp.bounded.2
  simp only [locMask] at hcapacity
  rw [Heap.grow, Nat.mod_eq_of_lt (by omega)]

/-- A block is added at the bump pointer. -/
theorem extended (hp : Partition h blocks status free) (hcls : cls < nclsAll)
    (hroom : h.bump + 2 ^ cls ≤ h.capacity) :
    Partition (h.grow cls) (blocks ++ [⟨h.bump, cls⟩]) (Function.update status h.bump .reserved)
      free := by
  rw [hp.grow_eq hroom]
  have hother : ∀ b ∈ blocks,
      Function.update status h.bump .reserved b.start = status b.start := by
    intro b hb
    have := (hp.within hb b.has_start).2
    exact Function.update_of_ne (by omega) _ _
  have hnew : ∀ {P : Block → Prop}, (∀ b ∈ blocks, P b) → P ⟨h.bump, cls⟩ →
      ∀ b ∈ blocks ++ [⟨h.bump, cls⟩], P b := by
    intro P hold hlast b hb
    rcases List.mem_append.1 hb with hb | hb
    · exact hold b hb
    · rw [List.mem_singleton.1 hb]
      exact hlast
  refine { hp with
    tiles := hp.tiles.concat rfl
    fits := hnew hp.fits hcls
    bounded := ⟨hroom, hp.bounded.2⟩
    live := ?_, inner := ?_, marked := ?_, pending := ?_, listed := ?_, unused := ?_ }
  · refine hnew (fun b hb hlive => ?_) fun hlive => ?_
    · exact hp.live b hb (hother b hb ▸ hlive)
    · simp at hlive
  · refine hnew (fun b hb hlive => ?_) fun _ loc hloc _ => hp.unused loc hloc.1
    exact hp.inner b hb (hother b hb ▸ hlive)
  · refine hnew (fun b hb hfree => ?_) fun hfree => ?_
    · exact hp.marked b hb (hother b hb ▸ hfree)
    · simp at hfree
  · refine hnew (fun b hb hpending => ?_) fun _ => .inl (hp.unused _ (Nat.le_refl _))
    exact hp.pending b hb (hother b hb ▸ hpending)
  · intro other hlt at_
    rw [hp.listed other hlt, List.mem_append, List.mem_singleton, Block.mk.injEq]
    refine ⟨fun hfound => ⟨.inl hfound.1, (hother _ hfound.1).trans hfound.2⟩, fun hfound => ?_⟩
    obtain ⟨hmem | hlast, hstatus⟩ := hfound
    · exact ⟨hmem, (hother _ hmem).symm.trans hstatus⟩
    · rw [hlast.1, Function.update_self] at hstatus
      cases hstatus
  · intro loc hloc
    exact hp.unused loc (Nat.le_trans (Nat.le_add_right _ _) hloc)

/-- A cell of another block. -/
theorem not_has (hp : Partition h blocks status free) (hb : b ∈ blocks) (hc : c ∈ blocks)
    (hne : c.start ≠ b.start) (hloc : c.Has loc) : ¬ b.Has loc := by
  rintro hbloc
  exact hne (congrArg Block.start (hp.unique hc hb hloc hbloc))

/-- A reserved block is initialized. -/
theorem prepared (hp : Partition h blocks status free) (hb : b ∈ blocks)
    (hreserved : status b.start = .reserved) :
    Partition (h.prepare b.start b.cls) blocks (Function.update status b.start .live) free := by
  have hother : ∀ c ∈ blocks, c.start ≠ b.start → ∀ loc, c.Has loc →
      (h.prepare b.start b.cls).metadata loc = h.metadata loc :=
    fun c hc hne loc hloc => if_neg (hp.not_has hb hc hne hloc)
  refine { hp with
    live := ?_, inner := ?_, marked := ?_, pending := ?_, chains := ?_, listed := ?_, unused := ?_ }
  · intro c hc hlive loc hloc
    by_cases heq : c.start = b.start
    · obtain rfl := hp.start_injective hc hb heq
      rw [show (h.prepare c.start c.cls).metadata loc = tbMeta c.start c.cls ||| tbMetaOwned
        from if_pos hloc]
      exact .owned (hp.start_le hc) (hp.fits c hc)
    · rw [hother c hc heq loc hloc]
      rw [Function.update_of_ne heq] at hlive
      exact hp.live c hc hlive loc hloc
  · intro c hc hlive loc hloc hne
    have heq : c.start ≠ b.start := by
      intro heq
      rw [heq, Function.update_self] at hlive
      exact hlive rfl
    rw [hother c hc heq loc hloc]
    rw [Function.update_of_ne heq] at hlive
    exact hp.inner c hc hlive loc hloc hne
  · intro c hc hmarked
    have heq : c.start ≠ b.start := by
      intro heq
      rw [heq, Function.update_self] at hmarked
      cases hmarked
    rw [hother c hc heq _ c.has_start]
    rw [Function.update_of_ne heq] at hmarked
    exact hp.marked c hc hmarked
  · intro c hc hpending
    have heq : c.start ≠ b.start := by
      intro heq
      rw [heq, Function.update_self] at hpending
      cases hpending
    rw [hother c hc heq _ c.has_start]
    rw [Function.update_of_ne heq] at hpending
    exact hp.pending c hc hpending
  · intro cls hcls
    refine (hp.chains cls hcls).congr fun loc hloc => if_neg ?_
    obtain ⟨hmem, hstatus⟩ := hp.of_listed hcls hloc
    refine hp.not_has hb hmem (fun heq => ?_) (Block.has_start ⟨loc, cls⟩)
    rw [show loc = b.start from heq, hreserved] at hstatus
    cases hstatus
  · intro cls hcls loc
    rw [hp.listed cls hcls]
    by_cases heq : loc = b.start
    · subst heq
      simp [hreserved]
    · rw [Function.update_of_ne heq]
  · intro loc hloc
    refine (if_neg fun hhas => ?_).trans (hp.unused loc hloc)
    have hlt := (hp.within hb hhas).2
    have hle : h.bump ≤ loc := hloc
    omega

/-- A live block goes to the list of its class. -/
theorem freed (hp : Partition h blocks status free) (hb : b ∈ blocks)
    (hlive : status b.start = .live) :
    Partition (h.release b.start b.cls) blocks (Function.update status b.start .free)
      (Function.update free b.cls (b.start :: free b.cls)) := by
  have hfits := hp.fits b hb
  have hself : (h.release b.start b.cls).metadata b.start =
      tbMeta b.start b.cls ||| tbMetaFree := Function.update_self _ _ _
  have hout : ∀ loc, ¬ b.Has loc → (h.release b.start b.cls).metadata loc = h.metadata loc := by
    rintro loc hloc
    have hne : loc ≠ b.start := by
      rintro rfl
      exact hloc b.has_start
    exact (Function.update_of_ne hne _ _).trans (if_neg hloc)
  have hother : ∀ c ∈ blocks, c.start ≠ b.start → ∀ loc, c.Has loc →
      (h.release b.start b.cls).metadata loc = h.metadata loc :=
    fun c hc hne loc hloc => hout loc (hp.not_has hb hc hne hloc)
  refine { hp with
    live := ?_, inner := ?_, marked := ?_, pending := ?_, chains := ?_, listed := ?_, unused := ?_ }
  · intro c hc hstatus loc hloc
    have heq : c.start ≠ b.start := by
      intro heq
      rw [heq, Function.update_self] at hstatus
      cases hstatus
    rw [hother c hc heq loc hloc]
    rw [Function.update_of_ne heq] at hstatus
    exact hp.live c hc hstatus loc hloc
  · intro c hc hstatus loc hloc hne
    by_cases heq : c.start = b.start
    · obtain rfl := hp.start_injective hc hb heq
      refine (Function.update_of_ne hne _ _).trans ?_
      exact if_pos hloc
    · refine (hother c hc heq loc hloc).trans (hp.inner c hc ?_ loc hloc hne)
      rwa [Function.update_of_ne heq] at hstatus
  · intro c hc hstatus
    by_cases heq : c.start = b.start
    · obtain rfl := hp.start_injective hc hb heq
      exact hself
    · refine (hother c hc heq _ c.has_start).trans (hp.marked c hc ?_)
      rwa [Function.update_of_ne heq] at hstatus
  · intro c hc hstatus
    have heq : c.start ≠ b.start := by
      intro heq
      rw [heq, Function.update_self] at hstatus
      cases hstatus
    rw [hother c hc heq _ c.has_start]
    refine hp.pending c hc ?_
    rwa [Function.update_of_ne heq] at hstatus
  · -- The block was not free, so it is on no list.
    have hfresh : ∀ cls < nclsAll, b.start ∉ free cls := by
      intro cls hcls hmem
      have := (hp.of_listed hcls hmem).2
      rw [hlive] at this
      cases this
    intro cls hcls
    by_cases heq : cls = b.cls
    · subst heq
      rw [Function.update_self,
        show (h.release b.start b.cls).freeLists b.cls = b.start from Function.update_self _ _ _]
      exact (hp.chains _ hcls).push (hp.start_ne hb) (hfresh _ hcls)
    · rw [Function.update_of_ne heq, show (h.release b.start b.cls).freeLists cls = h.freeLists cls
        from Function.update_of_ne heq _ _]
      refine (hp.chains cls hcls).congr fun loc hloc => ?_
      have hne : loc ≠ b.start := by
        rintro rfl
        exact hfresh cls hcls hloc
      exact Function.update_of_ne hne _ _
  · intro cls hcls loc
    by_cases hloc : loc = b.start
    · subst hloc
      simp only [Function.update_self, and_true]
      by_cases heq : cls = b.cls
      · subst heq
        simpa using hb
      · rw [Function.update_of_ne heq, hp.listed cls hcls]
        refine ⟨And.left, fun hmem => ?_⟩
        have := hp.start_injective hmem hb rfl
        exact absurd (congrArg Block.cls this) heq
    · rw [Function.update_of_ne hloc, ← hp.listed cls hcls]
      by_cases heq : cls = b.cls
      · subst heq
        simp [hloc]
      · rw [Function.update_of_ne heq]
  · intro loc hloc
    refine (hout loc fun hhas => ?_).trans (hp.unused loc hloc)
    have hlt := (hp.within hb hhas).2
    have hle : h.bump ≤ loc := hloc
    omega

end Partition

end TeamyBend.Runtime.BlockHeap
