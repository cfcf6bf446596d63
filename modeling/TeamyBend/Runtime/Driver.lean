/-
# The native driver

`drive_tasks` of `executable.rs` with what it calls, as a machine: one step goes from one place of
the loops to the next, and `Phase` says at which place the driver is.  A run ends with an exit or
with an error; an error drops the state, as `drive_io` does.

What the driver asks of the outside in a step is in `World`: what forcing a thunk gave, the thunk
that an allocation gave, the clock, the answers of workers and descriptors, and whether the rest
(evaluation budgets, output, decoding of arguments) went through.  No order of these answers is
assumed, so a statement about all runs is about every program and every order of events.
-/
import TeamyBend.Runtime.Scheduler

namespace TeamyBend.Runtime.Driver

open Channels (Handle Outcome Wake)

variable {T : Type}

/-! ## 1. What a task asks for -/

/-- `enum BuiltinForeign`, with the arguments that the request decodes. -/
inductive Foreign (T : Type) where
  | Print
  | Write
  | PrintErr
  | Now
  | Spawn (action : T)
  | Sleep (milliseconds : Nat)
  | ChanNew (room : Nat)
  | ChanSend (channel : Handle) (payload : T)
  | ChanRecv (channel : Handle)
  | ChanClose (channel : Handle)
  | GetEnv
  | FileOpen
  | FileRead (file : Nat)
  | FileReadBytes (file : Nat)
  | FileWrite (file : Nat)
  | FileClose
  | TcpListen
  | TcpAccept (listener : Nat)
  | TcpConnect
  | TcpSend (socket data : Nat)
  | TcpRecv (socket max : Nat)
  | UdpBind
  | UdpSendTo (socket host port data : Nat)
  | UdpRecvFrom (socket max : Nat)
  | UdpPoll (socket : Nat)
  | SocketClose (handle : Nat)
  | ListenerClose (handle : Nat)

/-- What forcing an action gives, in `run_task`. -/
inductive Value (T : Type) where
  | Emit
  | Halt (code : Nat)
  | Request (request : Foreign T) (continuation : T)

/-- What the outside says in one step. -/
structure World (T : Type) where
  /-- Everything that is not in the model went through. -/
  proceeds : Bool
  /-- What the current action is. -/
  forced : Value T
  /-- The thunk of the last allocation. -/
  allocated : T
  /-- The action that `io_action` makes. -/
  spawned : T
  /-- The clock. -/
  now : Nat
  /-- The job whose answer comes next. -/
  finished : Option Nat
  /-- Which requests have a ready descriptor. -/
  ready : Nat → Bool
  /-- The host call of the step succeeds. -/
  succeeds : Bool
  /-- A connection is still pending. -/
  connecting : Bool
  /-- The host call has to wait, and how far a send came. -/
  waits : Option Nat

/-- How a run ends without an error. -/
inductive Exit where
  | Finished
  | Halted (code : Nat)
  | Deadlocked
  deriving Repr, DecidableEq

/-- The code that `drive_tasks` returns. -/
def Exit.code : Exit → Nat
  | Finished => 0
  | Halted code => code
  | Deadlocked => 1

/-- An error of the modelled parts, or anything else that ends a run. -/
inductive Failure where
  | kernel (e : KernelError)
  | outside

/-- `?` on a result of a modelled part. -/
def lift {α : Type} : Except KernelError α → Except Failure α
  | .ok a => .ok a
  | .error e => .error (.kernel e)

/-! ## 2. The machine -/

/-- Where the driver is. -/
inductive Phase (T : Type) where
  /-- The head of the loop of `drive_tasks`. -/
  | turn
  /-- The loop of `resume_host_jobs`, called by `drive_tasks` or by `wait_for_task` with what it
  polled. -/
  | jobs (polled : Option (List Nat))
  /-- The head of the loop of `run_task`. -/
  | running (current : T)
  /-- The loop over the wakes in `channel_request`. -/
  | waking (wakes : List (Wake T T)) (outcome : Outcome T)
  /-- The head of the loop of `wait_for_task`. -/
  | waiting (polled : Option (List Nat))
  /-- The loop of `resume_network`. -/
  | network (orders : List Nat) (now : Nat)
  /-- The run is over. -/
  | done (exit : Exit)

/-- The parts of `struct Machine` that the driver's loops read and write. -/
structure Machine (T : Type) where
  scheduler : Scheduler.State T
  channels : Channels.State T T
  jobs : HostJobs.State T
  network : Network.State T
  turns : Nat
  phase : Phase T

namespace Machine

/-- The task goes on. -/
def proceed (m : Machine T) (w : World T) : Machine T := { m with phase := .running w.allocated }

/-- The task is parked. -/
def yield (m : Machine T) : Machine T := { m with phase := .turn }

/-! ### Requests -/

/-- `Machine::park_network`. -/
def parkNetwork (m : Machine T) (request : Network.Request T) : Except Failure (Machine T) := do
  let (order, scheduler) ← lift m.scheduler.reserveWait
  let network ← lift (m.network.park order request)
  return { m with scheduler, network }

/-- `Resource::socket` and `Resource::listener`: the resource that an operation needs. -/
def checkResource (operation : Network.Operation) (resource : Network.Resource) :
    Except Failure Unit :=
  match operation, resource with
  | .Accept, .Listener => return
  | .Accept, .Socket => .error (.kernel (.new "expected a native listener"))
  | _, .Socket => return
  | _, .Listener => .error (.kernel (.new "expected a native socket"))

/-- What an operation waits with, when the host makes it wait.  A connection that became ready
does not wait again, and a send is over with its last byte. -/
def waitsWith (w : World T) : Network.Operation → Option Network.Operation
  | .Connect => none
  | .Send data offset => if offset = data then none else w.waits.map (.Send data ·)
  | operation => w.waits.map fun _ => operation

/-- The socket that an `Accept` brings. -/
def acceptSocket (w : World T) (network : Network.State T) (operation : Network.Operation) :
    Except Failure (Network.State T) := do
  if operation = .Accept ∧ w.succeeds then
    let (_, network) ← lift (network.insert .Socket)
    return network
  else return network

/-- `Machine::advance_network`: whether the request is answered, or parked again. -/
def advanceNetwork (w : World T) (m : Machine T) (request : Network.Request T) :
    Except Failure (Bool × Machine T) := do
  checkResource request.operation request.resource
  match waitsWith w request.operation with
  | some operation =>
    let m ← m.parkNetwork { request with operation }
    return (false, m)
  | none =>
    match request.operation with
    | .Connect =>
      if w.succeeds then
        let (_, network) ← lift (m.network.insert request.resource)
        return (true, { m with network })
      else return (true, m)
    | operation =>
      let network ← acceptSocket w m.network operation
      match request.handle with
      | none => .error (.kernel (.new "native network response lost its handle"))
      | some handle =>
        let network ← lift (network.restore handle request.resource)
        return (true, { m with network })

/-- An answered request lets the task go on. -/
def answered (w : World T) : Bool × Machine T → Machine T
  | (true, m) => m.proceed w
  | (false, m) => m.yield

/-- The requests of `Machine::network_request` that park. -/
def takeAndPark (m : Machine T) (handle : Nat) (continuation : T) (operation : Network.Operation) :
    Except Failure (Machine T) := do
  let (resource, network) ← lift (m.network.take handle)
  let m ← { m with network }.parkNetwork ⟨resource, some handle, continuation, operation⟩
  return m.yield

/-- The requests of `Machine::network_request` that start at once. -/
def takeAndAdvance (w : World T) (m : Machine T) (handle : Nat) (continuation : T)
    (operation : Network.Operation) : Except Failure (Machine T) := do
  let (resource, network) ← lift (m.network.take handle)
  let next ← advanceNetwork w { m with network } ⟨resource, some handle, continuation, operation⟩
  return answered w next

/-- The requests of `Machine::network_request` that open a descriptor. -/
def openResource (w : World T) (m : Machine T) (resource : Network.Resource) :
    Except Failure (Machine T) := do
  if w.succeeds then
    let (_, network) ← lift (m.network.insert resource)
    return { m with network }.proceed w
  else return m.proceed w

/-- The requests of `Machine::network_request` that close a descriptor. -/
def closeResource (w : World T) (m : Machine T) (handle : Nat) : Except Failure (Machine T) := do
  let (_, network) ← lift (m.network.take handle)
  return { m with network }.proceed w

/-- `Machine::poll_network`. -/
def pollNetwork (w : World T) (m : Machine T) (handle : Nat) : Except Failure (Machine T) := do
  let (resource, network) ← lift (m.network.take handle)
  let network ← lift (network.restore handle resource)
  checkResource (.RecvFrom 0) resource
  return { m with network }.proceed w

/-- The rest of `TcpConnect` in `Machine::network_request`. -/
def connect (w : World T) (m : Machine T) (continuation : T) : Except Failure (Machine T) := do
  if w.succeeds ∧ w.connecting then
    let m ← m.parkNetwork ⟨.Socket, none, continuation, .Connect⟩
    return m.yield
  else openResource w m .Socket

/-- A file request that runs on a worker. -/
def submitJob (m : Machine T) (continuation : T) (handle : Option Nat) :
    Except Failure (Machine T) := do
  let jobs ← lift (m.jobs.submit continuation handle)
  return { m with jobs }.yield

/-- The end of `Machine::channel_request`, from a transition of the channels. -/
def transition (m : Machine T) :
    Except KernelError (Channels.Transition T T) × Channels.State T T → Except Failure (Machine T)
  | (.error e, _) => .error (.kernel e)
  | (.ok t, channels) => .ok { m with channels, phase := .waking t.wakes t.outcome }

/-- `ChanNew` in `Machine::channel_request`. -/
def openChannel (w : World T) (m : Machine T) (room : Nat) : Except Failure (Machine T) :=
  match m.channels.open room with
  | (.error e, _) => .error (.kernel e)
  | (.ok _, channels) => .ok ({ m with channels }.proceed w)

/-- `NANOS_PER_MILLI`. -/
def nanosPerMilli : Nat := 1000000

/-- `Sleep` in `Machine::io_request`. -/
def sleepRequest (w : World T) (m : Machine T) (milliseconds : Nat) :
    Except Failure (Machine T) := do
  if u64Max < w.now + milliseconds * nanosPerMilli then
    .error (.kernel (.new "native timer deadline overflow"))
  else
    let scheduler ← lift (m.scheduler.sleep (w.now + milliseconds * nanosPerMilli) w.allocated)
    return { m with scheduler }.yield

/-- `Spawn` in `Machine::io_request`. -/
def spawnRequest (w : World T) (m : Machine T) : Except Failure (Machine T) := do
  let scheduler ← lift (m.scheduler.spawn w.spawned)
  return { m with scheduler }.proceed w

/-- `Machine::io_request`. -/
def ioRequest (w : World T) (m : Machine T) (request : Foreign T) (continuation : T) :
    Except Failure (Machine T) :=
  match request with
  | .Print | .Write | .PrintErr | .Now | .GetEnv | .FileClose => .ok (m.proceed w)
  | .Spawn _ => spawnRequest w m
  | .Sleep milliseconds => sleepRequest w m milliseconds
  | .ChanNew room => openChannel w m room
  | .ChanSend channel payload => m.transition (m.channels.send channel payload continuation)
  | .ChanRecv channel => m.transition (m.channels.recv channel continuation)
  | .ChanClose channel => m.transition (Prod.map .ok id (m.channels.close channel))
  | .FileOpen => if w.succeeds then m.submitJob continuation none else .ok (m.proceed w)
  | .FileRead file | .FileReadBytes file | .FileWrite file => m.submitJob continuation (some file)
  | .TcpListen => openResource w m .Listener
  | .UdpBind => openResource w m .Socket
  | .TcpConnect => connect w m continuation
  | .TcpAccept listener => m.takeAndPark listener continuation .Accept
  | .TcpRecv socket max => m.takeAndPark socket continuation (.Recv max)
  | .UdpRecvFrom socket max => m.takeAndPark socket continuation (.RecvFrom max)
  | .TcpSend socket data => takeAndAdvance w m socket continuation (.Send data 0)
  | .UdpSendTo socket host port data =>
    takeAndAdvance w m socket continuation (.SendTo host port data)
  | .UdpPoll socket => pollNetwork w m socket
  | .SocketClose handle | .ListenerClose handle => closeResource w m handle

/-! ### Steps -/

/-- The rest of a turn of `drive_tasks`, after the workers were asked. -/
def nextTask (m : Machine T) : Machine T :=
  match m.scheduler.next with
  | some (current, scheduler) => { m with scheduler, phase := .running current }
  | none =>
    if m.scheduler.finished then { m with phase := .done .Finished }
    else { m with phase := .waiting none }

/-- One turn of `drive_tasks`. -/
def turn (m : Machine T) : Machine T :=
  let collectWorkers := m.turns % 64 == 0
  let m := { m with turns := (m.turns + 1) % 256 }
  if m.scheduler.hasReady && collectWorkers && m.jobs.hasPending then
    { m with phase := .jobs none }
  else m.nextTask

/-- One turn of `resume_host_jobs`. -/
def resumeHostJob (w : World T) (m : Machine T) (polled : Option (List Nat)) :
    Except Failure (Machine T) := do
  match ← lift (m.jobs.completed w.finished) with
  | some (_, jobs) =>
    let scheduler ← lift (m.scheduler.resume w.allocated)
    return { m with jobs, scheduler }
  | none =>
    match polled with
    | none => return m.nextTask
    | some orders => return { m with phase := .network orders w.now }

/-- One turn of `run_task`. -/
def runTask (w : World T) (m : Machine T) : Except Failure (Machine T) :=
  match w.forced with
  | .Emit => do
    let scheduler ← lift m.scheduler.complete
    return { m with scheduler }.yield
  | .Halt code => .ok { m with phase := .done (.Halted code) }
  | .Request request continuation => ioRequest w m request continuation

/-- One turn of the loop over the wakes of `channel_request`, and its end. -/
def wakeNext (w : World T) (m : Machine T) (outcome : Outcome T) :
    List (Wake T T) → Except Failure (Machine T)
  | _ :: wakes => do
    let scheduler ← lift (m.scheduler.resume w.allocated)
    return { m with scheduler, phase := .waking wakes outcome }
  | [] =>
    match outcome with
    | .Ready _ => .ok (m.proceed w)
    | .Parked => .ok m.yield

/-- A turn of `wait_for_task`, up to the workers. -/
def poll (w : World T) (m : Machine T) (polled : Option (List Nat)) : Machine T :=
  match polled with
  | some ready => { m with phase := .jobs (some ready) }
  | none =>
    { m with phase := .jobs (some (if m.network.hasPending then m.network.poll w.ready else [])) }

/-- The rest of a turn of `wait_for_task`, after the network. -/
def wait (w : World T) (m : Machine T) : Machine T :=
  if m.scheduler.hasReady then { m with phase := .turn }
  else if m.network.hasPending then
    { m with phase := .waiting (some (m.network.poll w.ready)) }
  else if m.jobs.hasPending then { m with phase := .waiting none }
  else if m.scheduler.nextDeadline.isSome then { m with phase := .waiting none }
  else { m with phase := .done .Deadlocked }

/-- One turn of `resume_network`, and its end. -/
def resumeNetwork (w : World T) (m : Machine T) (now : Nat) :
    List Nat → Except Failure (Machine T)
  | order :: orders => do
    let (request, network) ← lift (m.network.takePending order)
    let (isAnswered, m) ←
      advanceNetwork w { m with scheduler := m.scheduler.wakeBefore now order, network } request
    let scheduler ← if isAnswered then lift (m.scheduler.resume w.allocated) else .ok m.scheduler
    return { m with scheduler, phase := .network orders now }
  | [] => .ok ({ m with scheduler := m.scheduler.wake now }.wait w)

/-- One step of the driver. -/
def step (w : World T) (m : Machine T) : Except Failure (Machine T) :=
  if !w.proceeds then .error .outside
  else
    match m.phase with
    | .turn => .ok m.turn
    | .jobs polled => resumeHostJob w m polled
    | .running _ => runTask w m
    | .waking wakes outcome => wakeNext w m outcome wakes
    | .waiting polled => .ok (poll w m polled)
    | .network orders now => resumeNetwork w m now orders
    | .done _ => .ok m

/-- `drive_io`, up to `drive_tasks`: the entry is the only task. -/
def start (entry : T) : Except Failure (Machine T) := do
  let scheduler ← lift (Scheduler.State.default.spawn entry)
  return ⟨scheduler, .default, .default, .default, 0, .turn⟩

/-- The states of the runs from an entry. -/
inductive Reached (entry : T) : Machine T → Prop where
  | start {m : Machine T} (h : start entry = .ok m) : Reached entry m
  | step {m m' : Machine T} (w : World T) (hm : Reached entry m) (h : step w m = .ok m') :
      Reached entry m'

end Machine

end TeamyBend.Runtime.Driver
