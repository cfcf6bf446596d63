/-
# The adoption of a graph of tasks

A task is a block with its arguments, the task that waits for its result, and a word with the place
of the result and the number of tasks that it waits for itself.  A program may bring such a graph
from outside, so `tb_task_adopt` checks all of it before a child is taken from its place or a task
is started.

There is one memory, and the calls of one adoption follow each other.  The lists of records stand
for the links between them: a record is known by its place in the list of the adoption.  What the
system answers to a request for memory is given by the number of the request.  A scan is given a
bound on its records; `exhausted` is no failure of the source.
-/
import TeamyBend.Runtime.BlockHeap

namespace TeamyBend.Runtime.Tasks

open BlockHeap (Heap tbSpan tbAllocationLocked heapFree clsFit tbMetaOwned)

/-! ## 1. Terms and functions -/

def termHole : Nat := 2 ^ 64 - 1

def tagClo : Nat := 3

def tagTsk : Nat := 5

def termTag (term : Nat) : Nat := term / 2 ^ 56 % 128

def termAux (term : Nat) : Nat := term / 2 ^ 40 % 65536

def termLoc (term : Nat) : Nat := term % 2 ^ 40

def termRfc (term : Nat) : Bool := term / 2 ^ 63 % 2 = 1

def fidCloApply : Nat := 0

def fidIoEmit : Nat := 1

/-- `term_clo(FID_IO_EMIT, 0)` -/
def emitClosure : Nat := tagClo * 2 ^ 56 + fidIoEmit * 2 ^ 40

/-- Why a call ends the run. -/
inductive Failure where
  | exhausted
  | fail (message : String)

/-- The tables of registered functions, the limits of the build and what the system decides. -/
structure Setting where
  /-- The arity and the width of a segment. -/
  segment : Nat → Option (Nat × Nat)
  /-- The captures of a closure. -/
  captures : Nat → Option Nat
  resumeSlots : Nat → Nat
  /-- The task of a function is left to the device. -/
  device : Nat → Bool
  maxTasks : Nat
  maxSteps : Nat
  maxContinuations : Nat
  allocates : Nat → Bool

/-- A generated call that is suspended. -/
structure CallFrame where
  fid : Nat
  captures : List Nat
  argument : Nat

inductive RunState where
  | apply
  | direct
  | gpu

/-- A task that was started. -/
structure Run where
  target : Nat
  expected : Nat
  state : RunState
  current : Option CallFrame
  closure : Nat
  argument : Nat
  captures : List Nat
  fid : Nat
  result : Nat

/-- `TBTaskRecord`; `parent` is a place in the list of the adoption, and `boundary` the width that
the caller expects. -/
structure Record where
  task : Nat
  arity : Nat
  index : Nat
  remaining : Nat
  width : Nat
  reserved : Nat → Bool
  parent : Option Nat
  boundary : Option Nat

/-- The tables of the machine; `queue` holds the runs of the context. -/
structure Machine where
  heap : Heap
  cancelled : Bool
  steps : Nat
  allocations : Nat
  /-- The locations of the records in each bucket. -/
  table : Nat → List Nat
  tasks : Nat
  taskPeak : Nat
  taskJoins : Nat
  records : Nat
  continuations : Nat
  segmentCalls : Nat
  queue : List Run

abbrev M := EStateM Failure Machine

def errFail {α : Type} (message : String) : M α := throw (.fail message)

/-- A check of the heap. -/
def check {α : Type} : Except String α → M α
  | .ok a => pure a
  | .error message => errFail message

/-! ## 2. Reading a task -/

section Reading

variable (u : Setting)

def fidArity (fid : Nat) : Except String Nat :=
  if fid = fidCloApply then .ok 2
  else if fid = fidIoEmit then .ok 1
  else if 65536 ≤ fid then .error "foreign task id is unsupported"
  else
    match u.segment fid with
    | some segment => .ok segment.1
    | none =>
      match u.captures fid with
      | none => .error "foreign task id is unsupported"
      | some captures =>
        if 255 ≤ captures then .error "foreign task arity is unsupported" else .ok (captures + 1)

def fidResultWidth (fid : Nat) : Except String Nat :=
  if fid = fidCloApply ∨ fid = fidIoEmit then .ok 1
  else if 65536 ≤ fid then .error "foreign task id is unsupported"
  else
    match u.segment fid, u.captures fid with
    | some segment, _ => .ok segment.2
    | none, some _ => .ok 1
    | none, none => .error "foreign task id is unsupported"

/-- The class of the block of a task. -/
def taskCls (arity : Nat) : Nat := clsFit (UInt32.ofNat (arity + 2))

def taskTail (h : Heap) (task : Nat) : Except String Nat :=
  if termTag task ≠ tagTsk then .error "foreign task is unsupported"
  else if termRfc task then .error "reference-counted foreign task is unsupported"
  else
    match fidArity u (termAux task) with
    | .error message => .error message
    | .ok arity =>
      match tbAllocationLocked ⟨h.memory⟩ (termLoc task) (taskCls arity) h with
      | .error message => .error message
      | .ok _ => .ok (termLoc task + arity)

def tbCellOwned (h : Heap) (loc : Nat) : Except String Bool :=
  match tbSpan ⟨h.memory⟩ loc 1 h with
  | .error message => .error message
  | .ok _ => .ok (h.metadata loc &&& tbMetaOwned != 0#64)

/-! ## 3. Records -/

/-- `io_mem` of a request for memory. -/
def ioMem : M Unit := do
  let m ← get
  modify fun m => { m with allocations := m.allocations + 1 }
  if u.allocates m.allocations then pure () else errFail "host allocation budget exhausted"

def tbTick : M Unit := do
  let m ← get
  if m.cancelled then errFail "CPU execution cancelled"
  else if u.maxSteps ≤ m.steps ∨ m.steps = 2 ^ 64 - 1 then errFail "evaluation budget exhausted"
  else modify fun m => { m with steps := m.steps + 1 }

def tbTaskHash (loc : Nat) : Nat :=
  let mixed := loc * 11400714819323198485 % 2 ^ 64
  (mixed ^^^ mixed / 2 ^ 32) % 1024

/-- The record of a task; the tail word holds the place of the result above the number of tasks that
are waited for. -/
def recordOf (h : Heap) (task arity width tail : Nat) : Record where
  task
  arity
  index := h.cells (tail + 1) / 2 ^ 32 % 2 ^ 32
  remaining := h.cells (tail + 1) % 2 ^ 32
  width
  reserved _ := false
  parent := none
  boundary := none

/-- A record is counted and put into the table. -/
def Machine.enter (m : Machine) (loc : Nat) : Machine :=
  { m with
    table := Function.update m.table (tbTaskHash loc) (loc :: m.table (tbTaskHash loc))
    tasks := m.tasks + 1
    records := m.records + 1
    taskPeak := max m.taskPeak (m.tasks + 1) }

def tbTaskRecord (task : Nat) : M Record := do
  let m ← get
  let tail ← check (taskTail u m.heap task)
  let loc := termLoc task
  if loc ∈ m.table (tbTaskHash loc) then errFail "duplicate or cyclic task graph"
  else if m.tasks = 2 ^ 32 - 1 ∨ u.maxTasks ≤ m.tasks then errFail "task budget exhausted"
  else
    ioMem u
    let arity ← check (fidArity u (termAux task))
    let width ← check (fidResultWidth u (termAux task))
    let record := recordOf m.heap task arity width tail
    if arity < record.remaining then errFail "invalid task dependency count"
    else
      modify (·.enter loc)
      if record.remaining = 0 then pure record
      else if m.taskJoins = 2 ^ 64 - 1 then errFail "task join counter exhausted"
      else
        modify fun m => { m with taskJoins := m.taskJoins + 1 }
        pure record

/-- The cells of a payload from a place on: none that is owned is missing or pending. -/
def payloadReady (h : Heap) (loc : Nat) : List Nat → Except String Unit
  | [] => .ok ()
  | i :: rest =>
    match tbCellOwned h (loc + i) with
    | .error message => .error message
    | .ok false => payloadReady h loc rest
    | .ok true =>
      if h.cells (loc + i) = termHole then .error "foreign task argument is missing"
      else if termTag (h.cells (loc + i)) = tagTsk then
        .error "runnable task contains a pending task"
      else payloadReady h loc rest

def tbTaskPayloadReady (h : Heap) (loc arity : Nat) : Except String Unit :=
  payloadReady h loc (List.range arity)

def tbTaskArguments (record : Record) : M Unit := do
  let m ← get
  check (tbTaskPayloadReady m.heap (termLoc record.task) record.arity)

def tbTaskRoot (record : Record) (boundary : Option Nat) : M Record := do
  let m ← get
  let tail ← check (taskTail u m.heap record.task)
  if m.heap.cells tail ≠ termHole ∨ record.index ≠ 0 then
    errFail "foreign task continuation is unsupported"
  else if boundary.any (· ≠ record.width) then errFail "task result width mismatch"
  else pure { record with boundary }

/-! ## 4. A tree of tasks -/

/-- The cells of a result are reserved; `j` is the offset from the cell of the child. -/
def reserveSpan (h : Heap) (loc i : Nat) : List Nat → (Nat → Bool) → Except String (Nat → Bool)
  | [], reserved => .ok reserved
  | j :: rest, reserved =>
    if reserved (i + j) ∨ (j ≠ 0 ∧ h.cells (loc + i + j) ≠ termHole) then
      .error "task result spans overlap"
    else reserveSpan h loc i rest (Function.update reserved (i + j) true)

/-- The child in a cell of a record, which is at a place of the list. -/
def adoptChild (place i value : Nat) (record : Record) : M (Record × Record) := do
  let child ← tbTaskRecord u value
  let m ← get
  let tail ← check (taskTail u m.heap value)
  if m.heap.cells tail ≠ record.task ∨ child.index ≠ i then
    errFail "task child destination mismatch"
  else if record.arity - i < child.width then errFail "task result span is out of bounds"
  else
    let reserved ← check (reserveSpan m.heap (termLoc record.task) i (List.range child.width)
      record.reserved)
    pure ({ record with reserved }, { child with parent := some place })

/-- The cells of a record; `children` are those found so far. -/
def adoptCells (place : Nat) : List Nat → Record → List Record → M (Record × List Record)
  | [], record, children => pure (record, children)
  | i :: rest, record, children => do
    let m ← get
    let loc := termLoc record.task
    if record.reserved i then adoptCells place rest record children
    else
      let owned ← check (tbCellOwned m.heap (loc + i))
      if owned = false then adoptCells place rest record children
      else
        let value := m.heap.cells (loc + i)
        if value = termHole then errFail "foreign task argument is missing"
        else if termTag value = tagTsk then
          let (record, child) ← adoptChild u place i value record
          adoptCells place rest record (children ++ [child])
        else adoptCells place rest record children

/-- One record of the list, with the children that are put at the end of the list. -/
def adoptRecord (place : Nat) (record : Record) : M (Record × List Record) := do
  tbTick u
  if record.remaining = 0 then
    tbTaskArguments record
    pure (record, [])
  else
    let (record, children) ← adoptCells u place (List.range record.arity) record []
    if children.length ≠ record.remaining then errFail "task dependency count mismatch"
    else pure (record, children)

/-- The list of the adoption, from its first records, which are scanned. -/
def adoptTree : Nat → List Record → List Record → M (List Record)
  | _, scanned, [] => pure scanned
  | 0, _, _ :: _ => throw .exhausted
  | fuel + 1, scanned, record :: pending => do
    let (record, children) ← adoptRecord u scanned.length record
    adoptTree fuel (scanned ++ [record]) (pending ++ children)

/-! ## 5. A chain of tasks -/

/-- The cells of a parent that waits for one child. -/
def chainCells (h : Heap) (loc index width : Nat) :
    List Nat → (Nat → Bool) → Except String (Nat → Bool)
  | [], reserved => .ok reserved
  | i :: rest, reserved =>
    if index ≤ i ∧ i - index < width then
      if h.cells (loc + i) ≠ termHole then .error "incomplete external task graph"
      else chainCells h loc index width rest (Function.update reserved i true)
    else
      match tbCellOwned h (loc + i) with
      | .error message => .error message
      | .ok owned =>
        if owned ∧ (h.cells (loc + i) = termHole ∨ termTag (h.cells (loc + i)) = tagTsk) then
          .error "incomplete external task graph"
        else chainCells h loc index width rest reserved

/-- The task that waits for a child. -/
def adoptParent (child : Record) (parentTerm : Nat) : M Record := do
  let parent ← tbTaskRecord u parentTerm
  tbTick u
  if parent.remaining ≠ 1 ∨ parent.arity < child.index ∨
      parent.arity - child.index < child.width then
    errFail "incomplete external task graph"
  else
    let m ← get
    let reserved ← check (chainCells m.heap (termLoc parentTerm) child.index child.width
      (List.range parent.arity) parent.reserved)
    pure { parent with reserved }

/-- The tasks above a child, which is the last of the list. -/
def adoptChain : Nat → List Record → Record → M (List Record × Record)
  | fuel, below, child => do
    let m ← get
    let tail ← check (taskTail u m.heap child.task)
    if m.heap.cells tail = termHole then pure (below, child)
    else
      match fuel with
      | 0 => throw .exhausted
      | fuel + 1 =>
        let parent ← adoptParent u child (m.heap.cells tail)
        adoptChain fuel (below ++ [{ child with parent := some (below.length + 1) }]) parent

/-! ## 6. Starting tasks -/

/-- `tb_counter_add` of the segment calls. -/
def countSegmentCall : M Unit := do
  let m ← get
  if 2 ^ 64 - 1 ≤ m.segmentCalls then errFail "segment call counter exhausted"
  else modify fun m => { m with segmentCalls := m.segmentCalls + 1 }

/-- The cells of a payload are copied, into memory of the host unless there are none. -/
def copyCells (loc count : Nat) : M (List Nat) := do
  let m ← get
  if count = 0 then pure []
  else
    ioMem u
    pure ((List.range count).map fun i => m.heap.cells (loc + i))

/-- The slots of a frame, if it has any. -/
def frameSlots (slots : Nat) : M Unit := if slots = 0 then pure () else ioMem u

def tbCallFrameOwned (fid : Nat) (captures : List Nat) (argument : Nat) : M CallFrame := do
  let m ← get
  if m.continuations = 2 ^ 32 - 1 ∨ u.maxContinuations ≤ m.continuations then
    errFail "generated continuation budget exhausted"
  else
    modify fun m => { m with continuations := m.continuations + 1 }
    ioMem u
    frameSlots u (u.resumeSlots fid)
    pure ⟨fid, captures, argument⟩

def tbTaskSegmentStart (fid loc arity : Nat) (run : Run) : M Run := do
  let payload ← copyCells u loc arity
  let frame ← tbCallFrameOwned u fid payload 0
  countSegmentCall
  pure { run with current := some frame }

/-- `heap_free` -/
def freeTask (loc arity : Nat) : M Unit := do
  let m ← get
  let (outcome, heap) := heapFree ⟨m.heap.memory⟩ (taskCls arity) loc m.heap
  modify fun m => { m with heap }
  check outcome

def tbTaskStartCpu (task : Nat) (run : Run) : M Run := do
  let m ← get
  let loc := termLoc task
  let fid := termAux task
  let arity ← check (fidArity u fid)
  let run ← (if (u.segment fid).isSome then tbTaskSegmentStart u fid loc arity run
    else if fid = fidCloApply then
      pure { run with closure := m.heap.cells loc, argument := m.heap.cells (loc + 1) }
    else if fid = fidIoEmit then
      pure { run with closure := emitClosure, argument := m.heap.cells loc }
    else do
      let captures ← copyCells u loc (arity - 1)
      pure { run with
        fid, state := .direct, argument := m.heap.cells (loc + (arity - 1)), captures })
  freeTask loc arity
  pure run

def tbTaskUnindex (record : Record) : M Unit := do
  let m ← get
  let loc := termLoc record.task
  if loc ∈ m.table (tbTaskHash loc) then
    modify fun m => { m with
      table := Function.update m.table (tbTaskHash loc)
        ((m.table (tbTaskHash loc)).erase loc) }
  else errFail "task ownership registry mismatch"

/-- A task that is left to the device keeps its block, without a continuation. -/
def detach (task : Nat) : M Unit := do
  let m ← get
  let tail ← check (taskTail u m.heap task)
  modify fun m => { m with
    heap := { m.heap with
      cells := Function.update (Function.update m.heap.cells tail termHole) (tail + 1) 0 } }

/-- A task is started; `place` is that of its record. -/
def tbTaskStart (place : Nat) (record : Record) : M Unit :=
  if record.remaining ≠ 0 then errFail "task started before its dependencies"
  else do
    tbTaskArguments record
    ioMem u
    tbTaskUnindex record
    let run : Run := ⟨place, record.width, .apply, none, 0, 0, [], 0, 0⟩
    let run ← (if u.device (termAux record.task) then do
        detach u record.task
        pure { run with state := .gpu, result := record.task }
      else tbTaskStartCpu u record.task run)
    modify fun m => { m with queue := m.queue ++ [run] }

/-- The records that wait for nothing are started, in order. -/
def startReady : List (Record × Nat) → M Unit
  | [] => pure ()
  | (record, place) :: rest =>
    if record.remaining = 0 then do
      tbTaskStart u place record
      startReady rest
    else startReady rest

/-- The cells that are reserved become empty. -/
def emptyCells (h : Heap) (record : Record) : Heap :=
  { h with
    cells := fun loc =>
      if termLoc record.task ≤ loc ∧ loc < termLoc record.task + record.arity ∧
          record.reserved (loc - termLoc record.task) then termHole
      else h.cells loc }

/-! ## 7. The adoption -/

/-- What is adopted: the tasks above a ready child, or those below a root. -/
inductive Adoption where
  | chain (below : List Record) (last : Record)
  | tree (records : List Record)

/-- All that is checked before anything is taken or started. -/
def validate (fuel task : Nat) (boundary : Option Nat) (entry : Bool) : M Adoption := do
  let head ← tbTaskRecord u task
  let m ← get
  let tail ← check (taskTail u m.heap task)
  if entry ∧ head.remaining ≠ 0 then errFail "corpus_eval requires a ready task"
  else if m.heap.cells tail ≠ termHole then
    if head.remaining ≠ 0 then errFail "incomplete external task graph"
    else
      tbTaskArguments head
      let (below, last) ← adoptChain u fuel [] head
      let last ← tbTaskRoot u last boundary
      pure (.chain below last)
  else
    let head ← tbTaskRoot u head boundary
    let records ← adoptTree u fuel [] [head]
    pure (.tree records)

/-- What follows the checks. -/
def enact : Adoption → M Unit
  | .chain below last => tbTaskStart u 0 ((below ++ [last]).head (by simp))
  | .tree records => do
    modify fun m => { m with heap := records.foldl emptyCells m.heap }
    startReady u records.zipIdx

def tbTaskAdopt (fuel task : Nat) (boundary : Option Nat) (entry : Bool) : M Unit := do
  let adoption ← validate u fuel task boundary entry
  enact u adoption

end Reading

end TeamyBend.Runtime.Tasks
