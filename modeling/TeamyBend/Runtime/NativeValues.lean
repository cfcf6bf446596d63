/-
# Native values

A value is a word at run time: a tag, a constructor or a function, and the location of the block
that holds its fields.  A word that is not trivial owns its block.  A value with several owners has
a cell of its own for their number, and a word with the bit `RFC_BIT` is one owner of that cell.
What a block holds is owned too, but for the cells that are marked as raw.

Every word that a program takes from the heap is read inside a live block: a reading or a writing
elsewhere is an error of the model.  The loops below tick in each round, so the bound on their
rounds is the number of steps that a program may take.
-/
import TeamyBend.Runtime.TaskAdoption

namespace TeamyBend.Runtime.Values

open BlockHeap (Heap Outcome Env locMask clsFit tbMetaSealed metaLoc tbSpan tbSpanLocked
  tbAllocationLocked tbSetSealed tbMarkRaw heapAlloc heapFree store)
open Tasks (Setting M Failure check errFail ioMem tbTick tbCellOwned fidArity termHole tagClo tagTsk
  termTag termAux termLoc termRfc)

/-! ## 1. Terms -/

def tagPak : Nat := 1

def tagCtr : Nat := 2

def tagBuf : Nat := 4

def tagArr : Nat := 6

def rfcCnt : Nat := 2 ^ 24 - 1

/-- The tables of a program and what the system decides.  Registration checks the arities. -/
structure Program extends Setting where
  /-- `CID_ARITY_T` -/
  arities : List UInt8
  /-- The system gives the pages of a block at the bump pointer. -/
  backs : Nat → Bool
  captures_le : ∀ fid count, captures fid = some count → count ≤ 255
  segment_le : ∀ fid layout, segment fid = some layout → layout.1 ≤ 255

def termMake (tag aux loc : Nat) : Except String Nat :=
  if 127 < tag ∨ 65535 < aux ∨ locMask < loc then .error "native term fields overflow"
  else .ok (tag * 2 ^ 56 + aux * 2 ^ 40 + loc)

def termTriv (term : Nat) : Bool :=
  termTag term ≤ tagPak || term = termHole ||
    (termTag term = tagClo && termLoc term = 0 && !termRfc term)

/-- `(term & ~(RFC_BIT | LOC_MASK)) | at` -/
def withLoc (term loc : Nat) : Nat := term / 2 ^ 40 % 2 ^ 23 * 2 ^ 40 + loc

/-- `(term & ~LOC_MASK) | RFC_BIT | cell`, for a term without the bit. -/
def withCell (term cell : Nat) : Nat := term / 2 ^ 40 % 2 ^ 23 * 2 ^ 40 + 2 ^ 63 + cell

section Calls

variable (u : Program)

def cidArity (cid : Nat) : Except String Nat :=
  match u.arities[cid]? with
  | none => .error "unknown constructor id"
  | some arity => .ok arity.toNat

/-- `tb_closure_captures[fid]` -/
def closureCaptures (fid : Nat) : Nat := (u.captures fid).getD 0

/-- The class of the block of an array. -/
def arrayCls (tag aux : Nat) : Nat := if tag = tagArr then aux else if aux = 0 then 0 else aux - 1

/-! ## 2. The heap -/

/-- A call that changes the heap. -/
def onHeap {α : Type} (call : Env → Heap → Outcome α) : M α := do
  let m ← get
  match call ⟨m.heap.memory⟩ m.heap with
  | (.ok a, heap) =>
    modify fun m => { m with heap }
    return a
  | (.error message, _) => errFail message

/-- A check of the heap. -/
def onCheck {α : Type} (call : Env → Heap → Except String α) : M α := do
  let m ← get
  check (call ⟨m.heap.memory⟩ m.heap)

/-- `heap_alloc` -/
def alloc (cls : Nat) : M Nat := do
  let m ← get
  onHeap fun e => heapAlloc e cls (u.backs m.heap.bump)

/-- `heap_free` -/
def free (cls loc : Nat) : M Unit := onHeap fun e => heapFree e cls loc

/-- `tb_allocation` -/
def allocation (loc cls : Nat) : M Unit := onCheck fun e => tbAllocationLocked e loc cls

/-- `tb_span` -/
def span (loc count : Nat) : M Unit := onCheck fun e => tbSpan e loc count

/-- `e.mem[at]` -/
def read (loc : Nat) : M Nat := do
  span loc 1
  let m ← get
  return m.heap.cells loc

/-- `e.mem[at] = value` -/
def write (loc value : Nat) : M Unit := onHeap fun e => store e loc value

/-- `tb_cell_owned` -/
def cellOwned (loc : Nat) : M Bool := onCheck fun _ h => tbCellOwned h loc

/-- `tb_cell_sealed` -/
def cellSealed (loc : Nat) : M Bool := onCheck fun e h =>
  match tbSpan e loc 1 h with
  | .error message => .error message
  | .ok _ => .ok (h.metadata (metaLoc (h.metadata loc)) &&& tbMetaSealed != 0#64)

/-- `tb_set_sealed` -/
def setSealed (loc : Nat) («sealed» : Bool) : M Unit := onHeap fun e => tbSetSealed e loc «sealed»

/-- `tb_mark_raw` -/
def markRaw (loc count : Nat) : M Unit := onHeap fun e => tbMarkRaw e loc count

/-! ## 3. Counts -/

/-- `rfc_view_locked` -/
def rfcView (cell : Nat) (e : Env) (h : Heap) : Except String Nat :=
  match tbAllocationLocked e cell 0 h with
  | .error message => .error message
  | .ok _ =>
    let value := h.cells cell
    if value % 2 ^ 24 = 0 ∨ value % 2 ^ 24 = rfcCnt then .error "invalid native reference count"
    else
      match tbSpanLocked e (value / 2 ^ 24) 1 h with
      | .error message => .error message
      | .ok _ =>
        if h.metadata (value / 2 ^ 24) &&& tbMetaSealed = 0#64 then
          .error "unsealed shared native payload"
        else .ok value

def rfcBump (cell amount : Nat) : M Unit := do
  let value ← onCheck (rfcView cell)
  if rfcCnt - value % 2 ^ 24 ≤ amount then errFail "native reference count overflow"
  else write cell (value + amount)

/-- The location of the payload, if this was its last owner, and zero otherwise. -/
def rfcRelease (cell : Nat) : M Nat := do
  let value ← onCheck (rfcView cell)
  if value % 2 ^ 24 = 1 then do
    free 0 cell
    return value / 2 ^ 24
  else do
    write cell (value - 1)
    return 0

def rfcClaimUnique (cell : Nat) : M Bool := do
  let value ← onCheck (rfcView cell)
  if value % 2 ^ 24 = 1 then do
    free 0 cell
    return true
  else return false

/-- The tags of the values that may be shared. -/
def countable (tag : Nat) : Prop := tag = tagCtr ∨ tag = tagArr ∨ tag = tagBuf

instance : DecidablePred countable := fun tag =>
  inferInstanceAs (Decidable (tag = tagCtr ∨ tag = tagArr ∨ tag = tagBuf))

def rfcWrapSealed (term count : Nat) : M Nat := do
  if termRfc term ∨ ¬countable (termTag term) then
    errFail "native value cannot use a reference-count cell"
  else if count = 0 ∨ rfcCnt ≤ count then errFail "native reference count overflow"
  else do
    span (termLoc term) 1
    if !(← cellSealed (termLoc term)) then errFail "unsealed shared native payload"
    else do
      let cell ← alloc u 0
      write cell (termLoc term * 2 ^ 24 + count)
      markRaw cell 1
      return withCell term cell

/-- `term_peek` -/
def termPeek (term : Nat) : M Nat :=
  if termRfc term then do
    let value ← onCheck (rfcView (termLoc term))
    span (value / 2 ^ 24) 1
    return value / 2 ^ 24
  else do
    span (termLoc term) 1
    return termLoc term

/-! ## 4. Dropping a value -/

/-- The class of the block of a term, and the number of its fields, but of an array. -/
def dropShape (tag aux : Nat) : Except String (Nat × Nat) :=
  if tag = tagBuf ∨ tag = tagArr then
    if 17 < aux then .error "invalid array layout" else .ok (arrayCls tag aux, 0)
  else if tag = tagCtr then do
    let count ← cidArity u aux
    return (clsFit (UInt32.ofNat count), count)
  else if tag = tagClo then
    if aux < 2 ∨ closureCaptures u aux = 0 then .error "invalid closure destruction"
    else .ok (clsFit (UInt32.ofNat (closureCaptures u aux)), closureCaptures u aux)
  else if tag = tagTsk then do
    let count ← fidArity u.toSetting aux
    return (clsFit (UInt32.ofNat (count + 2)), count)
  else .error "invalid native term tag"

/-- `at | (count << 48) | (cls << 56)` -/
def frameWord (loc count cls : Nat) : Nat := (loc ||| count <<< 48 ||| cls <<< 56) % 2 ^ 64

/-- One owner less of a value that is shared. -/
def dropShared (term : Nat) : M Nat :=
  if !termTriv term && termRfc term then do
    let loc ← rfcRelease (termLoc term)
    return if loc = 0 then 0 else withLoc term loc
  else return term

/-- The block of a term is put on the way back; the word that it begins with is kept apart. -/
def dropEnter (term first current : Nat) : M (Nat × Nat) := do
  let term ← dropShared term
  if termTriv term then return (first, current)
  else do
    let (cls, count) ← check (dropShape u (termTag term) (termAux term))
    allocation (termLoc term) cls
    if termTag term = tagBuf then do
      free cls (termLoc term)
      return (first, current)
    else do
      let first ← read (termLoc term)
      write (termLoc term) current
      return (first, frameWord (termLoc term) count
        (if termTag term = tagArr then cls ||| 64 else cls))

/-- The position in an array is kept in its second cell from there on. -/
def dropPosition (array : Bool) (loc index : Nat) : M Nat :=
  if array && index = 2 then do
    let position ← read (loc + 1)
    return position % 2 ^ 32
  else return index

def dropChild (position loc first : Nat) : M Nat :=
  if position = 0 then return first else read (loc + position)

def dropMoved (array : Bool) (position loc : Nat) : M Unit :=
  if array && 0 < position then write (loc + 1) (position + 1) else return ()

/-- One round: the next field is dropped, or the block is given back. -/
def dropRound (first current : Nat) : M (Nat × Nat) := do
  tbTick u.toSetting
  let loc := current % 2 ^ 40
  let index := current / 2 ^ 40 % 2 ^ 8
  let array := decide (64 ≤ current / 2 ^ 56)
  let cls := current / 2 ^ 56 % 2 ^ 6
  let count := if array then 2 ^ cls % 2 ^ 32 else current / 2 ^ 48 % 2 ^ 8
  let position ← dropPosition array loc index
  if position < count then do
    let child ← dropChild position loc first
    let owned ← cellOwned (loc + position)
    dropMoved array position loc
    let current := if !array || index < 2 then (current + 2 ^ 40) % 2 ^ 64 else current
    if owned && !termTriv child then dropEnter u child first current else return (first, current)
  else do
    let previous ← read loc
    free cls loc
    return (first, previous)

def dropLoop : Nat → Nat → Nat → M Unit
  | 0, _, _ => throw .exhausted
  | fuel + 1, first, current =>
    if current = 0 then return ()
    else do
      let (first, current) ← dropRound u first current
      dropLoop fuel first current

def termDrop (term : Nat) : M Unit := do
  let (first, current) ← dropEnter u term 0 0
  dropLoop u (u.maxSteps + 1) first current

/-! ## 5. Sharing a value -/

/-- `TBSealFrame`; `owner` is the cell that the value stands in. -/
structure SealFrame where
  value : Nat
  owner : Option Nat
  loc : Nat
  index : Nat
  count : Nat

/-- The class of the block of a term, and the number of its fields. -/
def sealShape (tag aux : Nat) : Except String (Nat × Nat) :=
  if tag = tagCtr then do
    let count ← cidArity u aux
    return (clsFit (UInt32.ofNat count), count)
  else if tag = tagClo then
    if aux < 2 ∨ closureCaptures u aux = 0 then .error "invalid closure sealing"
    else .ok (clsFit (UInt32.ofNat (closureCaptures u aux)), closureCaptures u aux)
  else if tag = tagArr ∨ tag = tagBuf then
    if 17 < aux then .error "invalid array layout"
    else .ok (arrayCls tag aux, if tag = tagArr then 2 ^ arrayCls tag aux % 2 ^ 32 else 0)
  else .error "native value cannot use a reference-count cell"

/-- A value that is sealed is shared where it stands, but for a closure. -/
def sealOwner (value : Nat) : Option Nat → M Unit
  | none => return ()
  | some owner =>
    if termTag value = tagClo then return ()
    else do
      let wrapped ← rfcWrapSealed u value 1
      write owner wrapped

/-- A value that is not sealed is put on the stack. -/
def sealEnter (value : Nat) (owner : Option Nat) (stack : List SealFrame) :
    M (List SealFrame) := do
  if !termTriv value && !termRfc value then do
    let (cls, count) ← check (sealShape u (termTag value) (termAux value))
    allocation (termLoc value) cls
    if !(← cellSealed (termLoc value)) then do
      ioMem u.toSetting
      return ⟨value, owner, termLoc value, 0, count⟩ :: stack
    else do
      sealOwner u value owner
      return stack
  else return stack

/-- One round: the next cell of a block is looked at, or the block is sealed. -/
def sealRound (frame : SealFrame) (stack : List SealFrame) : M (List SealFrame) := do
  tbTick u.toSetting
  if frame.index < frame.count then do
    let cell := frame.loc + frame.index
    let stack := { frame with index := frame.index + 1 } :: stack
    if !(← cellOwned cell) then return stack
    else do
      let value ← read cell
      sealEnter u value (some cell) stack
  else do
    setSealed frame.loc true
    sealOwner u frame.value frame.owner
    return stack

def sealLoop : Nat → List SealFrame → M Unit
  | _, [] => return ()
  | 0, _ => throw .exhausted
  | fuel + 1, frame :: stack => do
    let stack ← sealRound u frame stack
    sealLoop fuel stack

def tbSealChildren (value : Nat) : M Unit := do
  let stack ← sealEnter u value none []
  sealLoop u (u.maxSteps + 1) stack

def rfcWrap (term count : Nat) : M Nat := do
  if termRfc term ∨ ¬countable (termTag term) then
    errFail "native value cannot use a reference-count cell"
  else if count = 0 ∨ rfcCnt ≤ count then errFail "native reference count overflow"
  else do
    tbSealChildren u term
    rfcWrapSealed u term count

def termKeep (term : Nat) : M Nat := do
  if termTriv term then return term
  else if termTag term = tagClo ∨ termTag term = tagTsk then
    errFail "native value cannot use a reference-count cell"
  else if termRfc term then do
    rfcBump (termLoc term) 1
    return term
  else rfcWrap u term 2

/-- `TBDuplicateFrame` -/
structure DuplicateFrame where
  source : Nat
  target : Nat
  index : Nat
  count : Nat

/-- One word: what its owner holds from then on, the second word, and the stack.  The shell of a
closure is copied, and its captures are put on the stack. -/
def duplicateWord (value : Nat) (stack : List DuplicateFrame) :
    M (Nat × Nat × List DuplicateFrame) := do
  if termTag value = tagClo ∧ termLoc value ≠ 0 then do
    let fid := termAux value
    let count := closureCaptures u fid
    if termRfc value ∨ fid < 2 ∨ count = 0 then errFail "invalid closure duplication"
    else do
      tbSealChildren u value
      let source ← termPeek value
      allocation source (clsFit (UInt32.ofNat count))
      let target ← alloc u (clsFit (UInt32.ofNat count))
      let copy ← check (termMake tagClo fid target)
      ioMem u.toSetting
      return (value, copy, ⟨source, target, 0, count⟩ :: stack)
  else do
    let kept ← termKeep u value
    return (kept, kept, stack)

/-- `*owner = kept` -/
def updateOwner (owner value kept : Nat) : M Unit :=
  if kept ≠ value then write owner kept else return ()

/-- One round: the next capture of a closure is duplicated. -/
def duplicateRound (frame : DuplicateFrame) (stack : List DuplicateFrame) :
    M (List DuplicateFrame) := do
  tbTick u.toSetting
  let owner := frame.source + frame.index
  let value ← read owner
  let (kept, copy, stack) ←
    duplicateWord u value ({ frame with index := frame.index + 1 } :: stack)
  updateOwner owner value kept
  write (frame.target + frame.index) copy
  return stack

/-- The frames that are done are taken off. -/
def duplicateLeft (stack : List DuplicateFrame) : List DuplicateFrame :=
  stack.dropWhile fun frame => frame.index = frame.count

def duplicateLoop : Nat → List DuplicateFrame → M Unit
  | 0, _ => throw .exhausted
  | fuel + 1, stack =>
    match duplicateLeft stack with
    | [] => return ()
    | frame :: stack => do
      let stack ← duplicateRound u frame stack
      duplicateLoop fuel stack

/-- `tb_duplicate` of a word in a cell. -/
def tbDuplicateCell (owner : Nat) : M Nat := do
  let value ← read owner
  let (kept, copy, stack) ← duplicateWord u value []
  updateOwner owner value kept
  duplicateLoop u (u.maxSteps + 1) stack
  return copy

/-! ## 6. Constructors and closures -/

/-- The words of a row of cells. -/
def readAll (loc : Nat) : Nat → M (List Nat)
  | 0 => return []
  | count + 1 => do
    let value ← read loc
    let values ← readAll (loc + 1) count
    return value :: values

/-- `memcpy` -/
def writeAll (loc : Nat) : List Nat → M Unit
  | [] => return ()
  | value :: values => do
    write loc value
    writeAll (loc + 1) values

/-- The words of a row of cells, those that are owned duplicated. -/
def duplicateAll (loc : Nat) : Nat → M (List Nat)
  | 0 => return []
  | count + 1 => do
    let value ← duplicateField loc
    let values ← duplicateAll (loc + 1) count
    return value :: values
where
  /-- `tb_cell_owned(e, at + index) ? tb_duplicate(e, e.mem + at + index) : e.mem[at + index]` -/
  duplicateField (loc : Nat) : M Nat := do
    if ← cellOwned loc then tbDuplicateCell u loc else read loc

/-- The fields of a value of one owner, or of several, and the block that is left, zero if there is
none. -/
def ctrTake (term count : Nat) : M (Nat × List Nat) := do
  if termTag term = tagPak then
    if 1 < count then errFail "packed constructor has too many fields"
    else return (0, if count = 1 then [termLoc term] else [])
  else if termTag term ≠ tagCtr then errFail "constructor expected"
  else do
    let arity ← check (cidArity u (termAux term))
    if count ≠ arity then errFail "constructor arity mismatch"
    else do
      let loc ← termPeek term
      allocation loc (clsFit (UInt32.ofNat count))
      let unique ← claimed term
      if unique then do
        let fields ← readAll loc count
        setSealed loc false
        return (loc, fields)
      else do
        let fields ← duplicateAll u loc count
        termDrop u term
        return (0, fields)
where
  /-- The value has no other owner. -/
  claimed (term : Nat) : M Bool :=
    if termRfc term then rfcClaimUnique (termLoc term) else return true

/-- `spare_free` -/
def spareFree (cls loc : Nat) : M Unit := if loc ≠ 0 then free cls loc else return ()

def tbConstruct (cid : Nat) (fields : List Nat) (packed : Bool) : M Nat := do
  match u.arities[cid]? with
  | none => errFail "constructor arity mismatch"
  | some arity =>
    if fields.length ≠ arity.toNat then errFail "constructor arity mismatch"
    else if packed then
      if 1 < fields.length ∨ locMask < fields.headD 0 then errFail "invalid packed constructor"
      else check (termMake tagPak cid (fields.headD 0))
    else do
      let loc ← alloc u (clsFit (UInt32.ofNat fields.length))
      writeAll loc fields
      check (termMake tagCtr cid loc)

/-- The value is of this constructor. -/
def representation (value cid count : Nat) (packed : Bool) : Except String Unit :=
  if termAux value ≠ cid then .error "constructor representation mismatch"
  else
    match cidArity u cid with
    | .error message => .error message
    | .ok arity =>
      if count ≠ arity ∨ termTag value ≠ (if packed then tagPak else tagCtr) then
        .error "constructor representation mismatch"
      else .ok ()

def tbFields (value cid count : Nat) (packed : Bool) : M (List Nat) := do
  check (representation u value cid count packed)
  let (loc, fields) ← ctrTake u value count
  spareFree (clsFit (UInt32.ofNat count)) loc
  return fields

def tbClosure (fid : Nat) (captures : List Nat) : M Nat := do
  if fid < 2 ∨ 65536 ≤ fid ∨ u.captures fid ≠ some captures.length then
    errFail "unregistered closure"
  else if captures = [] then check (termMake tagClo fid 0)
  else do
    let loc ← alloc u (clsFit (UInt32.ofNat captures.length))
    writeAll loc captures
    check (termMake tagClo fid loc)

end Calls

end TeamyBend.Runtime.Values
