/-
# The run of a task

A run works on one generated call after another.  A segment returns words, or a task that is ready,
or asks for a direct call; a frame that waits for a result is parked, and one that returns a call is
done, so that its storage takes the call where it is one of the same function.  What is still to be
done to the result of a chain of such calls is one word.

The pointers of an outcome may lead into the frame that returned it (`Span`).  Generated code is
given by what it does to its frame and to the world; it stays within its frame.  The host may refuse
any request for memory; those for the memory of frames are counted apart from the others.  The
device is left out; what the coordinator brings back for a graph of tasks is given.  A loop is given
a bound; `exhausted` is no failure of the source.
-/
import TeamyBend.Runtime.TaskAdoption

namespace TeamyBend.Runtime.TaskRuns

open BlockHeap (Heap tbSpan tbAllocationLocked heapAlloc heapFree clsFit)
open Tasks (Failure Setting termHole tagClo tagTsk termTag termAux termLoc termRfc fidCloApply
  fidIoEmit fidArity fidResultWidth taskTail taskCls tbTaskPayloadReady)

/-! ## 1. Calls and their results -/

/-- The heap, the counters that a run changes, and the rest of what generated code reads. -/
structure World (S : Type) where
  heap : Heap
  cancelled : Bool
  steps : Nat
  allocations : Nat
  segmentCalls : Nat
  resultWords : Nat
  multiwordResults : Nat
  rest : S

abbrev W (S : Type) := EStateM Failure (World S)

variable {S α : Type}

def errFail {σ : Type} (message : String) : EStateM Failure σ α := throw (.fail message)

def check {σ : Type} : Except String α → EStateM Failure σ α
  | .ok a => pure a
  | .error message => errFail message

/-- What generated code sees of its frame. -/
structure Body where
  pc : Nat
  destination : Nat
  expected : Nat
  tailResult : Nat
  waiting : Bool
  values : List Nat
  captures : List Nat
  argument : Nat

/-- `TBCallFrame` -/
structure CallFrame extends Body where
  fid : Nat
  savedResult : Nat
  slots : Nat

/-- A pointer to words: into the frame that returns it, or to memory elsewhere. -/
inductive Span where
  | null
  | captures (offset : Nat)
  | values (offset : Nat)
  | memory (words : List Nat)
  deriving DecidableEq

def Span.read (span : Span) (body : Body) (count : Nat) : List Nat :=
  match span with
  | .null => []
  | .captures offset => (List.range count).map fun i => body.captures.getD (offset + i) 0
  | .values offset => (List.range count).map fun i => body.values.getD (offset + i) 0
  | .memory words => (List.range count).map fun i => words.getD i 0

/-- `TBOutcome` of a segment; `task` is a term, or the function of a call. -/
structure Outcome where
  task : Nat
  words : Span
  owned : Span
  count : Nat
  pending : Nat

def outcomeWords : Nat := 0

def outcomeTask : Nat := 1

def outcomeCall : Nat := 2

/-- The words of a result, with a mark for each that it owns. -/
structure Packet where
  words : List Nat
  owned : List Nat

def Packet.count (packet : Packet) : Nat := packet.words.length

inductive Result where
  | words (packet : Packet)
  | task (term : Nat)

/-- What a frame ends its turn with. -/
inductive Turn where
  | call (outcome : Outcome)
  | result (result : Result)

/-! ## 2. Adapters of a scalar result -/

def tbResultCompose (outer inner : Nat) : Except String Nat :=
  if (outer ≠ 0 ∧ (outer &&& 1 = 0 ∨ 7 < outer)) ∨ (inner ≠ 0 ∧ (inner &&& 1 = 0 ∨ 7 < inner)) then
    .error "invalid scalar tail result adapter"
  else .ok (if outer = 0 then inner else outer &&& 3 ||| (outer ||| inner) &&& 4)

/-- A frame, not null, is given an adapter by its code. -/
def tbTailResult (body : Body) (mode : Nat) : Except String Body :=
  if body.waiting ∨ mode = 0 then .error "invalid scalar tail result adapter"
  else
    match tbResultCompose body.tailResult mode with
    | .error message => .error message
    | .ok tailResult => .ok { body with tailResult }

/-- The first word of a packet is cut to 32 bits by one bit of the mode, and owned by another. -/
def adapt (mode : Nat) (packet : Packet) : Packet where
  words := if mode &&& 4 ≠ 0 then packet.words.modifyHead (· % 2 ^ 32) else packet.words
  owned := packet.owned.modifyHead fun _ => if mode &&& 2 ≠ 0 then 1 else 0

/-- The adapter of a completed packet. -/
def applyAdapter (mode : Nat) (packet : Packet) : Except String Packet :=
  if mode = 0 then .ok packet
  else if packet.count ≠ 1 then .error "invalid scalar tail result adapter"
  else
    match tbResultCompose 0 mode with
    | .error message => .error message
    | .ok mode => .ok (adapt mode packet)

/-! ## 3. Programs -/

/-- Generated code stays within its frame. -/
def Stays (body body' : Body) : Prop :=
  body'.values.length = body.values.length ∧ body'.captures.length = body.captures.length

/-- The registered functions, with their code. -/
structure Program (S : Type) extends Setting where
  segmentCode : Nat → Body → W S (Outcome × Body)
  resumeCode : Nat → Option (Body → W S (Nat × Body))
  closureCode : Nat → List Nat → Nat → W S Nat
  parallel : Nat → Bool
  cidEmit : Nat
  emitArity : Nat
  /-- The system gives the pages of a block. -/
  backed : World S → Bool
  /-- The host grants a request for the memory of a frame. -/
  allocatesFrame : Nat → Bool
  /-- The packet of a graph of tasks. -/
  graph : Nat → W S Packet
  /-- A segment is registered with a function of 16 bits and is no closure. -/
  registered : ∀ fid arity width, segment fid = some (arity, width) →
    fid ≠ fidCloApply ∧ fid ≠ fidIoEmit ∧ fid < 65536 ∧ captures fid = none
  resumable : ∀ fid, (resumeCode fid).isSome →
    fid ≠ fidCloApply ∧ fid ≠ fidIoEmit ∧ fid < 65536 ∧ (captures fid).isSome
  segmentStays : ∀ fid body w outcome body' w',
    segmentCode fid body w = .ok (outcome, body') w' → Stays body body'
  resumeStays : ∀ fid code body w term body' w',
    resumeCode fid = some code → code body w = .ok (term, body') w' → Stays body body'

/-- What a run does next. -/
inductive Control where
  | value (packet : Packet)
  | frame (current : CallFrame)
  | direct (fid : Nat) (captures : List Nat) (argument : Nat)
  | apply (closure argument : Nat)

section Dispatch

variable (u : Program S)

def tbTick : W S Unit := do
  let w ← get
  if w.cancelled then errFail "CPU execution cancelled"
  else if u.maxSteps ≤ w.steps ∨ w.steps = 2 ^ 64 - 1 then errFail "evaluation budget exhausted"
  else modify fun w => { w with steps := w.steps + 1 }

/-- `tb_counter_add` of the segment calls. -/
def countSegmentCall : W S Unit := do
  let w ← get
  if 2 ^ 64 - 1 ≤ w.segmentCalls then errFail "segment call counter exhausted"
  else modify fun w => { w with segmentCalls := w.segmentCalls + 1 }

/-- `tb_counter_add` of the words of a result. -/
def countResultWords (count : Nat) : W S Unit := do
  let w ← get
  if 2 ^ 64 - 1 - count < w.resultWords then errFail "segment result counter exhausted"
  else modify fun w => { w with resultWords := w.resultWords + count }

/-- `tb_counter_add` of the results of more than one word. -/
def countMultiwordResult (count : Nat) : W S Unit := do
  let w ← get
  if count ≤ 1 then pure ()
  else if 2 ^ 64 - 1 ≤ w.multiwordResults then errFail "segment result counter exhausted"
  else modify fun w => { w with multiwordResults := w.multiwordResults + 1 }

/-- A call of the heap. -/
def onHeap (call : Heap → BlockHeap.Outcome α) : W S α := do
  let w ← get
  let (outcome, heap) := call w.heap
  modify fun w => { w with heap }
  check outcome

/-- The cells of a block of a class are copied and the block is given back. -/
def takeCells (loc count cls : Nat) : W S (List Nat) := do
  let w ← get
  onHeap (heapFree ⟨w.heap.memory⟩ cls loc)
  pure ((List.range count).map fun i => w.heap.cells (loc + i))

def memoryBudget : Failure := .fail "host allocation budget exhausted"

/-- `io_mem` of a request for memory. -/
def ioMem : W S Unit := do
  let w ← get
  modify fun w => { w with allocations := w.allocations + 1 }
  if u.allocates w.allocations then pure () else throw memoryBudget

/-- The words of a packet and their marks share a block. -/
def packetMem (count : Nat) : W S Unit := if count = 0 then pure () else ioMem u

def tbTaskPacket (body : Body) (words owned : Span) (count : Nat) : W S Packet :=
  if 255 < count ∨ (count ≠ 0 ∧ words = .null) then errFail "invalid task result width"
  else do
    packetMem u count
    if owned = .null then pure ⟨words.read body count, List.replicate count 1⟩
    else if (owned.read body count).any (1 < ·) then errFail "invalid task ownership mask"
    else pure ⟨words.read body count, owned.read body count⟩

/-- A term as a result. -/
def boxed (term : Nat) : W S Result :=
  if termTag term = tagTsk then pure (.task term)
  else do
    packetMem u 1
    pure (.words ⟨[term], [1]⟩)

/-- The captures of a closure. -/
def takeCaptures (closure count : Nat) : W S (List Nat) := do
  if count = 0 then pure []
  else
    let w ← get
    check (tbSpan ⟨w.heap.memory⟩ (termLoc closure) 1 w.heap)
    let cls := clsFit (UInt32.ofNat count)
    check (tbAllocationLocked ⟨w.heap.memory⟩ (termLoc closure) cls w.heap)
    ioMem u
    takeCells (termLoc closure) count cls

/-! ## 4. One turn of a frame -/

/-- The words of an outcome are counted and put into a packet. -/
def segmentPacket (fid : Nat) (body : Body) (outcome : Outcome) : W S Turn := do
  let width ← check (fidResultWidth u.toSetting fid)
  if outcome.count ≠ width then errFail "task result width mismatch"
  else
    countResultWords outcome.count
    let packet ← tbTaskPacket u body outcome.words outcome.owned outcome.count
    countMultiwordResult outcome.count
    pure (.result (.words packet))

/-- The turn that an outcome stands for. -/
def segmentTurn (fid : Nat) (body : Body) (outcome : Outcome) : W S Turn :=
  if outcomeCall < outcome.pending then errFail "invalid segment outcome tag"
  else if outcome.pending = outcomeWords then segmentPacket u fid body outcome
  else if outcome.pending = outcomeTask then pure (.result (.task outcome.task))
  else pure (.call outcome)

/-- The code of a frame runs. -/
def frameTurn (current : CallFrame) : W S (Turn × CallFrame) :=
  if current.waiting ∨ 65536 ≤ current.fid then errFail "invalid generated continuation state"
  else if (u.segment current.fid).isSome then do
    let (outcome, body) ← u.segmentCode current.fid current.toBody
    let turn ← segmentTurn u current.fid body outcome
    pure (turn, { current with toBody := body })
  else
    match u.resumeCode current.fid with
    | none => errFail "invalid generated continuation state"
    | some code => do
      let (term, body) ← code current.toBody
      let result ← boxed u term
      pure (.result result, { current with toBody := body })

def Turn.isWords : Turn → Bool
  | .result (.words _) => true
  | _ => false

/-- An adapter is for a call in the tail of a function of one word. -/
def checkAdapter (current : CallFrame) (turn : Turn) : Except String Unit :=
  if current.tailResult = 0 then .ok ()
  else if current.waiting ∨ turn.isWords then .error "invalid scalar tail result adapter"
  else
    match fidResultWidth u.toSetting current.fid with
    | .error message => .error message
    | .ok width => if width ≠ 1 then .error "invalid scalar tail result adapter" else .ok ()

/-- A frame waits for a call or a task, with a destination in its slots. -/
def checkDestination (current : CallFrame) (turn : Turn) : Except String Unit :=
  if current.waiting = false then .ok ()
  else if current.pc = 0 ∨ current.expected = 0 ∨ 255 < current.expected ∨
      current.slots < current.destination ∨
      current.slots - current.destination < current.expected then
    .error "invalid generated continuation destination"
  else
    match turn with
    | .call _ => .ok ()
    | .result (.task term) =>
      if termTag term ≠ tagTsk then .error "foreign task is unsupported" else .ok ()
    | .result (.words _) => .error "foreign task is unsupported"

/-- The arguments of a call, with their marks if there are some. -/
def checkArguments : List (Nat × Option Nat) → Except String Unit
  | [] => .ok ()
  | (word, owned) :: rest =>
    if owned.any (1 < ·) then .error "invalid task ownership mask"
    else if owned = some 0 then checkArguments rest
    else if word = termHole then .error "foreign task argument is missing"
    else if termTag word = tagTsk then .error "runnable task contains a pending task"
    else checkArguments rest

/-- The marks of the words of an outcome. -/
def Outcome.marks (outcome : Outcome) (body : Body) : List (Option Nat) :=
  if outcome.owned = .null then List.replicate outcome.count none
  else (outcome.owned.read body outcome.count).map some

/-- The function of a direct call. -/
def tbTaskCallValidate (body : Body) (outcome : Outcome) (expected : Nat) : Except String Nat :=
  if 65536 ≤ outcome.task then .error "invalid direct segment call"
  else
    match u.segment outcome.task with
    | none => .error "invalid direct segment call"
    | some (arity, width) =>
      if outcome.count ≠ arity ∨ (outcome.count ≠ 0 ∧ outcome.words = .null) then
        .error "invalid direct segment arguments"
      else if expected ≠ width then .error "task result width mismatch"
      else
        match checkArguments
            ((outcome.words.read body outcome.count).zip (outcome.marks body)) with
        | .error message => .error message
        | .ok _ => .ok outcome.task

/-! ## 5. Closures and tasks -/

/-- What an application is: a frame to be made, or a result. -/
inductive Applied where
  | frame (fid : Nat) (captures : List Nat) (argument : Nat)
  | result (result : Result)

/-- The closure function of the host is called. -/
def callClosure (fid : Nat) (captures : List Nat) (argument : Nat) : W S Applied := do
  let term ← u.closureCode fid captures argument
  let result ← boxed u term
  pure (.result result)

def tagCtr : Nat := 2

/-- `term_ctr` -/
def termCtr (cid loc : Nat) : Nat := tagCtr * 2 ^ 56 + cid * 2 ^ 40 + loc

/-- `Emit` of an argument. -/
def emit (argument : Nat) : W S Applied :=
  if u.emitArity ≠ 1 then errFail "Emit representation unavailable"
  else do
    let w ← get
    let loc ← onHeap (heapAlloc ⟨w.heap.memory⟩ 0 (u.backed w))
    modify fun w => { w with
      heap := { w.heap with cells := Function.update w.heap.cells loc argument } }
    let result ← boxed u (termCtr u.cidEmit loc)
    pure (.result result)

/-- A function is applied that is no closure of the heap. -/
def applyDirect (fid : Nat) (captures : List Nat) (argument : Nat) : W S Applied :=
  if (u.resumeCode fid).isSome then pure (.frame fid captures argument)
  else callClosure u fid captures argument

def applyClosure (expected closure argument : Nat) : W S Applied :=
  if expected ≠ 1 then errFail "task result width mismatch"
  else if termTag closure ≠ tagClo then errFail "application of a non-function"
  else if termRfc closure then errFail "reference-counted closure application is unsupported"
  else if termAux closure = fidIoEmit then emit u argument
  else
    match u.captures (termAux closure) with
    | none => errFail "unregistered closure application"
    | some count => do
      let captures ← takeCaptures u closure count
      applyDirect u (termAux closure) captures argument

/-- How a task goes on. -/
inductive Ready where
  | segment (fid loc arity : Nat) (payload : List Nat)
  | apply (closure argument : Nat)
  | graph

/-- A task that has no continuation and waits for nothing. -/
def isRoot (h : Heap) (tail : Nat) : Bool := h.cells tail = termHole ∧ h.cells (tail + 1) = 0

/-- The arguments of a ready task of a segment. -/
def readySegment (expected term : Nat) : W S Ready := do
  let w ← get
  let arity ← check (fidArity u.toSetting (termAux term))
  let width ← check (fidResultWidth u.toSetting (termAux term))
  if expected ≠ width then errFail "task result width mismatch"
  else
    check (tbTaskPayloadReady w.heap (termLoc term) arity)
    pure (.segment (termAux term) (termLoc term) arity
      ((List.range arity).map fun i => w.heap.cells (termLoc term + i)))

/-- `tb_task_take` of an application. -/
def tbTaskTake (term : Nat) : W S Ready := do
  let w ← get
  check (tbAllocationLocked ⟨w.heap.memory⟩ (termLoc term) 2 w.heap)
  if w.heap.cells (termLoc term) = termHole ∨ w.heap.cells (termLoc term + 1) = termHole then
    errFail "foreign task argument is missing"
  else
    onHeap (heapFree ⟨w.heap.memory⟩ 2 (termLoc term))
    pure (.apply (w.heap.cells (termLoc term)) (w.heap.cells (termLoc term + 1)))

def readyTask (expected term : Nat) : W S Ready := do
  let w ← get
  let tail ← check (taskTail u.toSetting w.heap term)
  if (u.segment (termAux term)).isSome ∧ isRoot w.heap tail then readySegment u expected term
  else if termAux term = fidCloApply ∧ isRoot w.heap tail then
    if expected ≠ 1 then errFail "task result width mismatch" else tbTaskTake term
  else pure .graph

/-- The block of a task is given back. -/
def freeTask (loc arity : Nat) : W S Unit := do
  let w ← get
  onHeap (heapFree ⟨w.heap.memory⟩ (taskCls arity) loc)

/-! ## 6. Frames -/

/-- The frames of all runs are counted, and the requests for their memory. -/
structure State (S : Type) where
  world : World S
  continuations : Nat
  requests : Nat

abbrev F (S : Type) := EStateM Failure (State S)

/-- A step of the world. -/
def onWorld (m : W S α) : F S α := fun s =>
  match m s.world with
  | .ok a world => .ok a { s with world }
  | .error failure world => .error failure { s with world }

/-- A run, beside what it does next. -/
structure Run where
  pending : List CallFrame
  expected : Nat
  tailResult : Nat

/-- A frame before its first turn. -/
def freshFrame (fid : Nat) (captures : List Nat) (argument : Nat) : CallFrame where
  pc := 0
  destination := 0
  expected := 1
  tailResult := 0
  waiting := false
  values := List.replicate (u.resumeSlots fid) 0
  captures
  argument
  fid
  savedResult := 0
  slots := u.resumeSlots fid

def continuationBudget : Failure := .fail "generated continuation budget exhausted"

/-- `io_mem` of a request for the memory of a frame. -/
def frameMem : F S Unit := do
  let s ← get
  modify fun s => { s with requests := s.requests + 1 }
  if u.allocatesFrame s.requests then pure () else throw memoryBudget

/-- The slots of a frame or its captures, if it has any. -/
def cellsMem (count : Nat) : F S Unit := if count = 0 then pure () else frameMem u

def tbCallFrameOwned (fid : Nat) (captures : List Nat) (argument : Nat) : F S CallFrame := do
  let s ← get
  if s.continuations = 2 ^ 32 - 1 ∨ u.maxContinuations ≤ s.continuations then
    throw continuationBudget
  else
    modify fun s => { s with continuations := s.continuations + 1 }
    frameMem u
    cellsMem u (u.resumeSlots fid)
    pure (freshFrame u fid captures argument)

def tbCallFrameFree : F S Unit := do
  let s ← get
  if s.continuations = 0 then errFail "unbalanced generated continuation"
  else modify fun s => { s with continuations := s.continuations - 1 }

/-- Words are moved to the first cells. -/
def moveCells (words cells : List Nat) : List Nat := words ++ cells.drop words.length

/-- The storage of a frame takes the arguments of a call of its own function. -/
def reuseFrame (current : CallFrame) (outcome : Outcome) : CallFrame :=
  -- the words may lie in the captures and in the values, so they are moved first
  let moved := { current with
    captures := moveCells (outcome.words.read current.toBody outcome.count) current.captures }
  let cleared := { moved with
    values := moveCells (List.replicate moved.slots 0) moved.values }
  { cleared with
    pc := 0, destination := 0, expected := 1, tailResult := 0, argument := 0, savedResult := 0 }

/-- A frame that waits is parked; one that is done is given back. -/
def leaveFrame (run : Run) (current : CallFrame) : F S Run :=
  if current.waiting then
    pure {
      pending := { current with savedResult := run.tailResult } :: run.pending
      expected := current.expected
      tailResult := 0 }
  else do
    tbCallFrameFree
    pure run

/-! ## 7. The dispatcher -/

/-- What an iteration ends with. -/
inductive Step where
  | again (control : Control) (run : Run)
  | finish (packet : Packet)
  | graph (term : Nat) (run : Run)

/-- A direct call, from a frame that has made its turn. -/
def directCall (run : Run) (current : CallFrame) (outcome : Outcome) : F S Step := do
  let fid ← check (tbTaskCallValidate u current.toBody outcome
    (if current.waiting then current.expected else run.expected))
  if current.waiting = false ∧ fid = current.fid then
    onWorld countSegmentCall
    pure (.again (.frame (reuseFrame current outcome)) run)
  else
    cellsMem u outcome.count
    let captures := outcome.words.read current.toBody outcome.count
    let run ← leaveFrame run current
    let frame ← tbCallFrameOwned u fid captures 0
    onWorld countSegmentCall
    pure (.again (.frame frame) run)

/-- A frame goes on with the words that it waited for. -/
def resumeFrame (current : CallFrame) (packet : Packet) : Except String CallFrame :=
  if current.waiting = false ∨ current.pc = 0 ∨ current.expected ≠ packet.count ∨
      current.slots < current.destination ∨
      current.slots - current.destination < packet.count then
    .error "invalid generated continuation destination"
  else
    .ok { current with
      values := current.values.take current.destination ++
        moveCells packet.words (current.values.drop current.destination)
      waiting := false }

/-- A packet goes to the frame that was parked last. -/
def deliver (run : Run) (packet : Packet) : F S Step := do
  if packet.count ≠ run.expected then errFail "task result width mismatch"
  else
    let packet ← check (applyAdapter run.tailResult packet)
    match run.pending with
    | [] => pure (.finish packet)
    | current :: pending => do
      let resumed ← check (resumeFrame current packet)
      let expected ← check (fidResultWidth u.toSetting current.fid)
      pure (.again (.frame { resumed with savedResult := 0 })
        { pending, expected, tailResult := current.savedResult })

/-- A task that is ready goes on in the same run. -/
def conclude (run : Run) : Result → F S Step
  | .words packet => deliver u run packet
  | .task term => do
    let ready ← onWorld (readyTask u run.expected term)
    match ready with
    | .segment fid loc arity payload => do
      cellsMem u arity
      let frame ← tbCallFrameOwned u fid payload 0
      onWorld countSegmentCall
      onWorld (freeTask loc arity)
      pure (.again (.frame frame) run)
    | .apply closure argument => pure (.again (.apply closure argument) run)
    | .graph => pure (.graph term run)

/-- The adapter of a frame goes before those of the run. -/
def composeAdapter (run : Run) (current : CallFrame) : Except String Run :=
  if current.tailResult = 0 then .ok run
  else
    match tbResultCompose run.tailResult current.tailResult with
    | .error message => .error message
    | .ok tailResult => .ok { run with tailResult }

/-- A frame has its turn. -/
def advanceFrame (run : Run) (current : CallFrame) : F S Step := do
  let (turn, current) ← onWorld (frameTurn u current)
  check (checkAdapter u current turn)
  let run ← check (composeAdapter run current)
  check (checkDestination current turn)
  match turn with
  | .call outcome => directCall u run current outcome
  | .result result => do
    let run ← leaveFrame run current
    conclude u run result

def advanceApplied (run : Run) : Applied → F S Step
  | .frame fid captures argument => do
    let frame ← tbCallFrameOwned u fid captures argument
    pure (.again (.frame frame) run)
  | .result result => conclude u run result

/-- An iteration of the loop. -/
def advanceStep (control : Control) (run : Run) : F S Step := do
  onWorld (tbTick u)
  match control with
  | .value packet => deliver u run packet
  | .frame current => advanceFrame u run current
  | .direct fid captures argument => do
    let applied ← onWorld (applyDirect u fid captures argument)
    advanceApplied u run applied
  | .apply closure argument => do
    let applied ← onWorld (applyClosure u run.expected closure argument)
    advanceApplied u run applied

/-- A worker of the pool may take the run. -/
def tbTaskWorkerSafe : Control → Bool
  | .value _ => true
  | .frame current => current.fid < 65536 ∧ u.parallel current.fid
  | .direct fid _ _ => fid < 65536 ∧ u.parallel fid
  | .apply closure _ =>
    termTag closure = tagClo ∧ (termAux closure = fidIoEmit ∨ u.parallel (termAux closure))

inductive Event where
  | finish (packet : Packet)
  | graph (term : Nat) (run : Run)
  | coordinator (control : Control) (run : Run)

def tbTaskAdvance (worker : Bool) : Nat → Control → Run → F S Event
  | 0, _, _ => throw .exhausted
  | fuel + 1, control, run =>
    if worker ∧ tbTaskWorkerSafe u control = false then pure (.coordinator control run)
    else do
      let step ← advanceStep u control run
      match step with
      | .again control run => tbTaskAdvance worker fuel control run
      | .finish packet => pure (.finish packet)
      | .graph term run => pure (.graph term run)

/-- The packet of a graph goes to the run that it was started for. -/
def tbTaskBoundary (expected term : Nat) : W S Packet := do
  let packet ← u.graph term
  if packet.count ≠ expected then errFail "task result width mismatch" else pure packet

/-- A run is taken up by the coordinator and by workers until it finishes; `wishes` says where the
coordinator would give it to a worker. -/
def execute (wishes : Nat → Bool) : Nat → Control → Run → F S Packet
  | 0, _, _ => throw .exhausted
  | fuel + 1, control, run => do
    let event ← tbTaskAdvance u (wishes fuel && tbTaskWorkerSafe u control) (fuel + 1) control run
    match event with
    | .finish packet => pure packet
    | .graph term run => do
      let packet ← onWorld (tbTaskBoundary u run.expected term)
      execute wishes fuel (.value packet) run
    | .coordinator control run => execute wishes fuel control run

end Dispatch

end TeamyBend.Runtime.TaskRuns
