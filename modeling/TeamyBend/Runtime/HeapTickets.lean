/-
# Blocks that are reserved together

A device reserves the blocks of a task and of its children at once.  A first pass counts what each
list can give and what has to be fresh; only then are the blocks taken.  They form a ticket: the
first cell of each holds the offset of the next, in the order of the request.

As in the allocator, a call holds the lock to its end, and a failure keeps the heap that it left.
The storage of a device is there from the start, so `tb_heap_commit` has nothing to do.
-/
import TeamyBend.Runtime.BlockHeap

namespace TeamyBend.Runtime.BlockHeap

/-- The class of a block for the task of a function; `fidArity` is a generated table. -/
def taskClass (fidArity : Nat → Except String UInt32) (fid : Nat) : Except String Nat :=
  (fidArity (fid % 2 ^ 32)).map fun arity => clsFit (arity + 2)

/-- What is reserved after the first block: blocks of one class, or for the tasks of an array of
functions. -/
structure BundleTail where
  repeatedCls : Nat
  fids : Option (Nat → Nat)
  tailCount : UInt32

section Bundle

variable (fidArity : Nat → Except String UInt32) (firstCls : Nat) (tail : BundleTail)

/-- The class of a further block, when it is counted. -/
def BundleTail.countedClass (index : Nat) : Except String Nat :=
  match tail.fids with
  | none => .ok tail.repeatedCls
  | some fids =>
    if 65536 ≤ fids index then .error "invalid heap reservation"
    else taskClass fidArity (fids index)

/-- The class of a block, when it is taken. -/
def takenClass (index : Nat) : Except String Nat :=
  if index = 0 then .ok firstCls
  else
    match tail.fids with
    | none => .ok tail.repeatedCls
    | some fids => taskClass fidArity (fids (index - 1))

/-! ## 1. The counting pass -/

/-- The further blocks are counted by class, with the words of all of them. -/
def countTail :
    List Nat → (Nat → Nat) → Nat → Except String ((Nat → Nat) × Nat)
  | [], requested, total => .ok (requested, total)
  | index :: indices, requested, total =>
    match tail.countedClass fidArity index with
    | .error message => .error message
    | .ok cls =>
      if nclsAll ≤ cls ∨ requested cls = 2 ^ 32 - 1 then .error "invalid heap reservation"
      else
        countTail indices (Function.update requested cls (requested cls + 1))
          ((total + 2 ^ cls) % 2 ^ 64)

/-- The blocks of a list that can be used again, at most a number of them. -/
def countReused (h : Heap) (cls : Nat) : Nat → Nat → Nat → Except String Nat
  | 0, _, reused => .ok reused
  | wanted + 1, loc, reused =>
    if loc = 0 then .ok reused
    else if loc < heapOff ∨ h.bump ≤ loc ∨ h.bump - loc < 2 ^ cls ∨
        h.metadata loc ≠ tbMeta loc cls ||| tbMetaFree then
      .error "invalid native free list"
    else
      let next := h.cells loc
      if next ≠ 0 ∧ (next < heapOff ∨ h.bump ≤ next) then .error "invalid native free list"
      else countReused h cls wanted next (reused + 1)

/-- The lists of some classes are counted, with the words that have to be fresh. -/
def countLists (h : Heap) (requested : Nat → Nat) :
    List Nat → (Nat → Nat) → Nat → Except String ((Nat → Nat) × Nat)
  | [], reused, fresh => .ok (reused, fresh)
  | cls :: classes, reused, fresh =>
    match countReused h cls (requested cls) (h.freeLists cls) 0 with
    | .error message => .error message
    | .ok count =>
      countLists h requested classes (Function.update reused cls count)
        ((fresh + (requested cls - count) * 2 ^ cls) % 2 ^ 64)

/-! ## 2. The taking pass -/

/-- The ticket so far: its first block and its last one. -/
structure Ticket where
  head : Nat
  previous : Nat

/-- A block is put at the end of the ticket. -/
def Ticket.link (ticket : Ticket) (loc : Nat) (h : Heap) : Ticket × Heap :=
  if ticket.previous = 0 then (⟨loc, loc⟩, h)
  else
    (⟨ticket.head, loc⟩, { h with cells := Function.update h.cells ticket.previous loc })

def takeBlocks (reused : Nat → Nat) : List Nat → (Nat → Nat) → Ticket → Heap → Outcome Ticket
  | [], _, ticket, h => (.ok ticket, h)
  | index :: indices, consumed, ticket, h =>
    match takenClass fidArity firstCls tail index with
    | .error message => (.error message, h)
    | .ok cls =>
      if consumed cls < reused cls then
        let loc := h.freeLists cls
        if loc = 0 then (.error "invalid native free list", h)
        else
          let (ticket, h) := ticket.link loc (h.pop cls)
          takeBlocks reused indices (Function.update consumed cls (consumed cls + 1)) ticket h
      else
        let (ticket, h) := ticket.link h.bump (h.grow cls)
        takeBlocks reused indices consumed ticket h

/-- The end of the ticket. -/
def Ticket.close (ticket : Ticket) (h : Heap) : Heap :=
  if ticket.previous = 0 then h
  else { h with cells := Function.update h.cells ticket.previous 0 }

/-- The blocks are taken, with the bump pointer that must result. -/
def commitBundle (reused : Nat → Nat) (count total nextBump : Nat) (h : Heap) : Outcome Nat :=
  match takeBlocks fidArity firstCls tail reused (List.range count) (fun _ => 0) ⟨0, 0⟩ h with
  | (.error message, h) => (.error message, h)
  | (.ok ticket, h) =>
    let h := ticket.close h
    if h.bump ≠ nextBump then (.error "invalid native heap accounting", h)
    else (.ok ticket.head, h.account total count)

def tbDeviceCorpusReserveBundle (e : Option Env) (h : Heap) : Outcome Nat :=
  let tailCount := tail.tailCount.toNat
  if e.map Env.mem ≠ some h.memory ∨ h.heapMeta = 0 ∨ nclsAll ≤ firstCls ∨
      tailCount = 2 ^ 32 - 1 ∨ (tail.fids.isNone ∧ nclsAll ≤ tail.repeatedCls) then
    (.error "invalid heap reservation", h)
  else
    let count := tailCount + 1
    match countTail fidArity tail (List.range tailCount)
        (Function.update (fun _ => 0) firstCls 1) (2 ^ firstCls) with
    | .error message => (.error message, h)
    | .ok (requested, total) =>
      match countLists h requested (List.range nclsAll) (fun _ => 0) 0 with
      | .error message => (.error message, h)
      | .ok (reused, fresh) =>
        if h.bump < heapOff ∨ h.capacity < h.bump ∨ h.capacity - h.bump < fresh ∨
            h.capacity < total then
          (.error "VM allocation budget exhausted", h)
        else if h.capacity - total < h.liveWords ∨ 2 ^ 64 - 1 - h.liveBlocks < count then
          (.error "invalid native heap accounting", h)
        else
          commitBundle fidArity firstCls tail reused count total ((h.bump + fresh) % 2 ^ 64) h

end Bundle

/-! ## 3. Drawing the blocks -/

/-- The next block of a ticket, with the rest of the ticket. -/
def tbDeviceCorpusTicketTake (e : Option Env) (ticket : Nat) (h : Heap) :
    Except String (Nat × Nat) :=
  if e.map Env.mem ≠ some h.memory ∨ ticket < heapOff ∨ h.bump ≤ ticket then
    .error "invalid heap reservation"
  else
    let next := h.cells ticket
    if next ≠ 0 ∧ (next < heapOff ∨ h.bump ≤ next) then .error "invalid heap reservation"
    else .ok (ticket, next)

def tbDeviceCorpusInitializeReserved (e : Option Env) (loc cls : Nat) (h : Heap) : Outcome Unit :=
  if e.map Env.mem ≠ some h.memory ∨ h.heapMeta = 0 ∨ nclsAll ≤ cls then
    (.error "invalid heap reservation", h)
  else if loc < heapOff ∨ h.bump ≤ loc ∨ h.bump - loc < 2 ^ cls then
    (.error "invalid heap reservation", h)
  else if h.metadata loc ≠ 0#64 ∧ h.metadata loc ≠ tbMeta loc cls ||| tbMetaFree then
    (.error "invalid heap reservation", h)
  else (.ok (), h.prepare loc cls)

/-- What is done with a ticket: its next block is taken, or a block that was taken is
initialized. -/
inductive Draw where
  | take
  | prepare (number : Nat)
  deriving DecidableEq

/-- The heap and the rest of a ticket, with the blocks that were taken. -/
structure Drawn where
  heap : Heap
  ticket : Nat
  taken : List Nat

namespace Drawn

/-- A call on a ticket; `classes` are those of the request. -/
def serve (e : Option Env) (classes : List Nat) (d : Drawn) : Draw → Except String Drawn
  | .take =>
    match tbDeviceCorpusTicketTake e d.ticket d.heap with
    | .error message => .error message
    | .ok (loc, next) => .ok { d with ticket := next, taken := d.taken ++ [loc] }
  | .prepare number =>
    match d.taken[number]?, classes[number]? with
    | some loc, some cls =>
      match tbDeviceCorpusInitializeReserved e loc cls d.heap with
      | (.error message, _) => .error message
      | (.ok _, heap) => .ok { d with heap }
    | _, _ => .error "no such block"

def run (e : Option Env) (classes : List Nat) (d : Drawn) : List Draw → Except String Drawn
  | [] => .ok d
  | draw :: draws =>
    match d.serve e classes draw with
    | .error message => .error message
    | .ok d => d.run e classes draws

end Drawn

/-- Each block is taken once and is initialized at most once, after it was taken: `taken` blocks
were, and `filled` are initialized. -/
def InOrder (count : Nat) : Nat → List Nat → List Draw → Prop
  | _, _, [] => True
  | taken, filled, .take :: draws => taken < count ∧ InOrder count (taken + 1) filled draws
  | taken, filled, .prepare number :: draws =>
    number < taken ∧ number ∉ filled ∧ InOrder count taken (number :: filled) draws

end TeamyBend.Runtime.BlockHeap
