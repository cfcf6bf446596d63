/-
# The block allocator of native values

The heap is one array of cells with a word of metadata for each; `loc` is the offset of a cell, and
`cls` the class of a block.  A block has `2 ^ cls` cells; the
metadata of each of its cells holds the start of the block, its class and the flags.  A block that
is given back goes to the list of its class, threaded through the first cells of the free blocks,
and a request takes the head of its list, or moves the bump pointer.

Every call below holds the lock of the machine to its end, so calls are taken one after another.
A check that fails ends the run of the program; the heap is kept with each outcome to say what a
failed call left.
-/
import Mathlib.Algebra.Order.Ring.Nat
import Mathlib.Data.Nat.Bitwise
import Mathlib.Logic.Function.Basic

namespace TeamyBend.Runtime.BlockHeap

/-- A word of metadata. -/
abbrev Word := BitVec 64

def heapOff : Nat := 1

def nclsAll : Nat := 32

def locMask : Nat := 2 ^ 40 - 1

/-- The pointers that a caller brings. -/
structure Env where
  mem : Nat

structure Heap where
  /-- The address of the cells, `tb_memory`. -/
  memory : Nat
  /-- The address of the metadata, zero if there is none. -/
  heapMeta : Nat
  cells : Nat → Nat
  metadata : Nat → Word
  freeLists : Nat → Nat
  bump : Nat
  capacity : Nat
  liveWords : Nat
  liveBlocks : Nat

/-- What a call ends with, and the heap that it leaves. -/
abbrev Outcome (α : Type) := Except String α × Heap

/-! ## 1. Classes and metadata -/

/-- `while ((UINT64_C(1) << cls) < count) ++cls`, for a class of at most 32. -/
def clsFitFrom (count : Nat) : Nat → Nat → Nat
  | 0, cls => cls
  | fuel + 1, cls => if 2 ^ cls < count then clsFitFrom count fuel (cls + 1) else cls

/-- The class of the smallest block that holds a number of cells. -/
def clsFit (count : UInt32) : Nat := clsFitFrom count.toNat 32 0

def tbMetaOwned : Word := 1#64 <<< 63

def tbMetaFree : Word := 1#64 <<< 62

def tbMetaSealed : Word := 1#64 <<< 61

def tbMeta (loc cls : Nat) : Word :=
  BitVec.ofNat 64 loc ||| BitVec.ofNat 64 (cls + 1) <<< 40

/-- The class has 32 bits: no class is the largest number. -/
def tbMetaClass (metadata : Word) : Nat :=
  ((metadata >>> 40 &&& 63#64).toNat + (2 ^ 32 - 1)) % 2 ^ 32

/-- `metadata & LOC_MASK` -/
def metaLoc (metadata : Word) : Nat := (metadata &&& BitVec.ofNat 64 locMask).toNat

/-! ## 2. The calls -/

/-- `count` cells from `loc` on are changed. -/
def overRange {α : Type} (cells : Nat → α) (loc : Nat) (count : Nat) (change : α → α) : Nat → α :=
  fun at_ => if loc ≤ at_ ∧ at_ < loc + count then change (cells at_) else cells at_

/-- `tb_heap_commit` of the host: `backed` says whether the system gave the pages.  On a device
they are there. -/
def tbHeapCommit (capacity stop : Nat) (backed : Bool) : Except String Unit :=
  if capacity < stop ∨ (2 ^ 64 - 1) / 8 < stop then .error "invalid host corpus commitment"
  else if backed then .ok () else .error "host corpus commitment failed"

/-- A block gets its cells and its metadata. -/
def Heap.prepare (h : Heap) (loc cls : Nat) : Heap :=
  { h with
    cells := overRange h.cells loc (2 ^ cls) fun _ => 0
    metadata := overRange h.metadata loc (2 ^ cls) fun _ => tbMeta loc cls ||| tbMetaOwned }

/-- The head of a list is taken off. -/
def Heap.pop (h : Heap) (cls : Nat) : Heap :=
  { h with freeLists := Function.update h.freeLists cls (h.cells (h.freeLists cls)) }

/-- There is a block more below the bump pointer. -/
def Heap.grow (h : Heap) (cls : Nat) : Heap := { h with bump := (h.bump + 2 ^ cls) % 2 ^ 64 }

/-- A block goes to the list of its class. -/
def Heap.release (h : Heap) (loc cls : Nat) : Heap :=
  { h with
    metadata := Function.update (overRange h.metadata loc (2 ^ cls) fun _ => 0#64) loc
      (tbMeta loc cls ||| tbMetaFree)
    cells := Function.update h.cells loc (h.freeLists cls)
    freeLists := Function.update h.freeLists cls loc }

/-- More blocks are live. -/
def Heap.account (h : Heap) (words blocks : Nat) : Heap :=
  { h with
    liveWords := (h.liveWords + words) % 2 ^ 64
    liveBlocks := (h.liveBlocks + blocks) % 2 ^ 64 }

def heapAllocLocked (e : Env) (cls : Nat) (backed : Bool) (h : Heap) : Outcome Nat :=
  if e.mem ≠ h.memory ∨ h.heapMeta = 0 ∨ nclsAll ≤ cls then (.error "invalid heap allocation", h)
  else
    let size := 2 ^ cls
    let loc := h.freeLists cls
    if loc ≠ 0 then
      if h.bump ≤ loc ∨ h.metadata loc ≠ tbMeta loc cls ||| tbMetaFree then
        (.error "invalid native free list", h)
      else (.ok loc, ((h.pop cls).prepare loc cls).account size 1)
    else
      let loc := h.bump
      if h.capacity < size ∨ h.capacity - size < loc then
        (.error "VM allocation budget exhausted", h)
      else
        match tbHeapCommit h.capacity (loc + size) backed with
        | .error message => (.error message, h)
        | .ok _ => (.ok loc, ((h.grow cls).prepare loc cls).account size 1)

def heapAlloc (e : Env) (cls : Nat) (backed : Bool) (h : Heap) : Outcome Nat :=
  heapAllocLocked e cls backed h

def tbSpanLocked (e : Env) (loc : Nat) (count : Nat) (h : Heap) : Except String Unit :=
  if e.mem ≠ h.memory ∨ h.heapMeta = 0 ∨ loc < heapOff ∨ h.bump ≤ loc then
    .error "invalid native heap span"
  else
    let metadata := h.metadata loc
    let owner := metaLoc metadata
    let cls := tbMetaClass metadata
    if metadata = 0#64 ∨ metadata &&& tbMetaFree ≠ 0#64 ∨ owner < heapOff ∨ loc < owner ∨
        nclsAll ≤ cls then
      .error "invalid native heap span"
    else
      let size := 2 ^ cls
      if size ≤ loc - owner ∨ size - (loc - owner) < count then .error "invalid native heap span"
      else .ok ()

def tbSpan (e : Env) (loc : Nat) (count : Nat) (h : Heap) : Except String Unit :=
  tbSpanLocked e loc count h

def tbAllocationLocked (e : Env) (loc cls : Nat) (h : Heap) : Except String Unit :=
  match tbSpanLocked e loc 1 h with
  | .error message => .error message
  | .ok _ =>
    if nclsAll ≤ cls ∨ h.metadata loc &&& ~~~(tbMetaOwned ||| tbMetaSealed) ≠ tbMeta loc cls then
      .error "native allocation class mismatch"
    else .ok ()

/-- A cell of a checked span is written. -/
def store (e : Env) (loc : Nat) (value : Nat) (h : Heap) : Outcome Unit :=
  match tbSpan e loc 1 h with
  | .error message => (.error message, h)
  | .ok _ => (.ok (), { h with cells := Function.update h.cells loc value })

def tbSetSealed (e : Env) (loc : Nat) («sealed» : Bool) (h : Heap) : Outcome Unit :=
  match tbSpanLocked e loc 1 h with
  | .error message => (.error message, h)
  | .ok _ =>
    if metaLoc (h.metadata loc) ≠ loc then (.error "invalid sealed allocation", h)
    else
      let flagged :=
        if «sealed» then h.metadata loc ||| tbMetaSealed else h.metadata loc &&& ~~~tbMetaSealed
      (.ok (), { h with metadata := Function.update h.metadata loc flagged })

/-- What marking as raw and as owned have in common. -/
def mark (change : Word → Word) (e : Env) (loc : Nat) (count : Nat) (h : Heap) : Outcome Unit :=
  match tbSpanLocked e loc count h with
  | .error message => (.error message, h)
  | .ok _ =>
    if h.metadata (metaLoc (h.metadata loc)) &&& tbMetaSealed ≠ 0#64 then
      (.error "mutation of sealed native layout", h)
    else (.ok (), { h with metadata := overRange h.metadata loc count change })

def tbMarkRaw : Env → Nat → Nat → Heap → Outcome Unit := mark (· &&& ~~~tbMetaOwned)

def tbMarkOwned : Env → Nat → Nat → Heap → Outcome Unit := mark (· ||| tbMetaOwned)

def heapFreeLocked (e : Env) (cls loc : Nat) (h : Heap) : Outcome Unit :=
  match tbAllocationLocked e loc cls h with
  | .error message => (.error message, h)
  | .ok _ =>
    (.ok (), { h.release loc cls with
      liveWords := (h.liveWords + (2 ^ 64 - 2 ^ cls)) % 2 ^ 64
      liveBlocks := (h.liveBlocks + (2 ^ 64 - 1)) % 2 ^ 64 })

def heapFree (e : Env) (cls loc : Nat) (h : Heap) : Outcome Unit :=
  heapFreeLocked e cls loc h

/-! ## 3. Programs -/

/-- The heap that a program starts with, if its capacity is one: its pages are zero. -/
def startHeap (memory heapMeta capacity : Nat) : Except String Heap :=
  if capacity ≤ heapOff ∨ locMask < capacity ∨ (2 ^ 64 - 1) / 8 < capacity then
    .error "VM initialization failed"
  else
    .ok {
      memory, heapMeta, capacity
      cells := fun _ => 0
      metadata := fun _ => 0#64
      freeLists := fun _ => 0
      bump := heapOff
      liveWords := 0
      liveBlocks := 0 }

structure Block where
  start : Nat
  cls : Nat
  deriving DecidableEq

def Block.size (b : Block) : Nat := 2 ^ b.cls

/-- A request of a program. -/
inductive Request where
  | alloc (cls : Nat) (backed : Bool)
  | free (cls loc : Nat)
  | store (loc : Nat) (value : Nat)
  | setSealed (loc : Nat) («sealed» : Bool)
  | markRaw (loc : Nat) (count : Nat)
  | markOwned (loc : Nat) (count : Nat)

/-- The heap, with the blocks that were allocated and not given back. -/
structure Holding where
  heap : Heap
  held : List Block

namespace Holding

/-- A call that allocates nothing. -/
def after (w : Holding) (held : List Block) : Outcome Unit → Holding
  | (.ok _, heap) => ⟨heap, held⟩
  | (.error _, heap) => ⟨heap, w.held⟩

def serve (e : Env) (w : Holding) : Request → Holding
  | .alloc cls backed =>
    match heapAlloc e cls backed w.heap with
    | (.ok loc, heap) => ⟨heap, ⟨loc, cls⟩ :: w.held⟩
    | (.error _, heap) => ⟨heap, w.held⟩
  | .free cls loc => w.after (w.held.erase ⟨loc, cls⟩) (heapFree e cls loc w.heap)
  | .store loc value => w.after w.held (BlockHeap.store e loc value w.heap)
  | .setSealed loc s => w.after w.held (tbSetSealed e loc s w.heap)
  | .markRaw loc count => w.after w.held (tbMarkRaw e loc count w.heap)
  | .markOwned loc count => w.after w.held (tbMarkOwned e loc count w.heap)

/-- The requests are served in order; one that fails has no effect. -/
def run (e : Env) (w : Holding) (requests : List Request) : Holding :=
  requests.foldl (serve e) w

end Holding

end TeamyBend.Runtime.BlockHeap
