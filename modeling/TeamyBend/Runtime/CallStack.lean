/-
# A frame for each call

What the run of a task is to compute, with a frame for every call: a call puts its caller on the
stack, whether it waits or not, and a result goes down the stack.  A caller that waits takes the
words and goes on; one that called in its tail has its adapter applied to them.
-/
import TeamyBend.Runtime.TaskRun

namespace TeamyBend.Runtime.TaskRuns.CallStack

open Tasks (Failure)

variable {S : Type} (u : Program S)

/-- The width of the results of a function. -/
def width (fid : Nat) : Nat :=
  match u.segment fid with
  | some segment => segment.2
  | none => 1

/-- The width that is expected of a callee, under the frames of its callers. -/
def awaited (root : Nat) : List CallFrame → Nat
  | [] => root
  | frame :: _ => if frame.waiting then frame.expected else width u frame.fid

/-- What a dispatch ends with. -/
inductive Step where
  | again (control : Control) (stack : List CallFrame)
  | finish (packet : Packet)
  | graph (term : Nat) (stack : List CallFrame)

/-- A packet is returned to the frame on the top of the stack. -/
def unwind (root : Nat) : Packet → List CallFrame → Except String Step
  | packet, [] =>
    if packet.count ≠ root then .error "task result width mismatch" else .ok (.finish packet)
  | packet, frame :: rest =>
    if packet.count ≠ awaited u root (frame :: rest) then .error "task result width mismatch"
    else if frame.waiting then
      match resumeFrame frame packet with
      | .error message => .error message
      | .ok resumed => .ok (.again (.frame resumed) rest)
    else
      match applyAdapter frame.tailResult packet with
      | .error message => .error message
      | .ok packet => unwind root packet rest

/-- A direct call: its caller stays on the stack. -/
def directCall (root : Nat) (stack : List CallFrame) (current : CallFrame) (outcome : Outcome) :
    W S Step := do
  let fid ← check (tbTaskCallValidate u current.toBody outcome
    (awaited u root (current :: stack)))
  countSegmentCall
  pure (.again
    (.frame (freshFrame u fid (outcome.words.read current.toBody outcome.count) 0))
    (current :: stack))

/-- A task that is ready is run under the stack. -/
def startReady (root term : Nat) (stack : List CallFrame) : W S Step := do
  let ready ← readyTask u (awaited u root stack) term
  match ready with
  | .segment fid loc arity payload => do
    countSegmentCall
    freeTask loc arity
    pure (.again (.frame (freshFrame u fid payload 0)) stack)
  | .apply closure argument => pure (.again (.apply closure argument) stack)
  | .graph => pure (.graph term stack)

/-- A frame ends its turn with words, and is done, or with a task. -/
def conclude (root : Nat) (stack : List CallFrame) (current : CallFrame) : Result → W S Step
  | .words packet => check (unwind u root packet stack)
  | .task term => startReady u root term (current :: stack)

def advanceFrame (root : Nat) (stack : List CallFrame) (current : CallFrame) : W S Step := do
  let (turn, current) ← frameTurn u current
  check (checkAdapter u current turn)
  let _ ← check (tbResultCompose 0 current.tailResult)
  check (checkDestination current turn)
  match turn with
  | .call outcome => directCall u root stack current outcome
  | .result result => conclude u root stack current result

def advanceApplied (root : Nat) (stack : List CallFrame) : Applied → W S Step
  | .frame fid captures argument =>
    pure (.again (.frame (freshFrame u fid captures argument)) stack)
  | .result (.words packet) => check (unwind u root packet stack)
  | .result (.task term) => startReady u root term stack

def advanceStep (root : Nat) (control : Control) (stack : List CallFrame) : W S Step := do
  tbTick u
  match control with
  | .value packet => check (unwind u root packet stack)
  | .frame current => advanceFrame u root stack current
  | .direct fid captures argument => do
    let applied ← applyDirect u fid captures argument
    advanceApplied u root stack applied
  | .apply closure argument => do
    let applied ← applyClosure u (awaited u root stack) closure argument
    advanceApplied u root stack applied

inductive Event where
  | finish (packet : Packet)
  | graph (term : Nat) (stack : List CallFrame)
  | coordinator (control : Control) (stack : List CallFrame)

def advance (root : Nat) (worker : Bool) : Nat → Control → List CallFrame → W S Event
  | 0, _, _ => throw .exhausted
  | fuel + 1, control, stack =>
    if worker ∧ tbTaskWorkerSafe u control = false then pure (.coordinator control stack)
    else do
      let step ← advanceStep u root control stack
      match step with
      | .again control stack => advance root worker fuel control stack
      | .finish packet => pure (.finish packet)
      | .graph term stack => pure (.graph term stack)

def execute (root : Nat) (wishes : Nat → Bool) : Nat → Control → List CallFrame → W S Packet
  | 0, _, _ => throw .exhausted
  | fuel + 1, control, stack => do
    let event ← advance u root (wishes fuel && tbTaskWorkerSafe u control) (fuel + 1) control stack
    match event with
    | .finish packet => pure packet
    | .graph term stack => do
      let packet ← tbTaskBoundary u (awaited u root stack) term
      execute root wishes fuel (.value packet) stack
    | .coordinator control stack => execute root wishes fuel control stack

end TeamyBend.Runtime.TaskRuns.CallStack
