/-
# The scheduler of generated programs

`executable_io.c`: an action (`IoAct`) moves between intrusive queues, the threads that run blocking
calls, and the channels.  One thread runs the program (`io_loop`); the workers only call, and push
their action to `completed`.

What a computation asks next is free, and so are the time, the readiness of descriptors and the
order in which workers finish.  A call of `err_fail` ends the program, so it leaves no state.  How
long a poll waits, the wake descriptor's own errors, and the terms in the fields of an action are
left out.
-/
import TeamyBend.Runtime.RingWaiters
import Mathlib.Logic.Function.Basic

namespace TeamyBend.Runtime.IoLoop

open Channels (Rings ChanRow Transition Fault Wake)

/-! ## 1. The state -/

/-- `BEND_MAX_WORKERS`. -/
def bendMaxWorkers : Nat := 64

/-- `struct IoAct`: what the scheduler keeps in an action. -/
structure IoAct where
  time : Nat
  evts : Nat
  descriptor : Int
  parked : Nat

/-- `struct pollfd`, with the action that it was written for. -/
structure Poll where
  owner : Option Nat
  fd : Int
  events : Nat
  revents : Nat

/-- The locals of the last loop of `io_wait`. -/
structure Drain where
  turns : Nat
  waiting : List Nat
  polls : List Poll
  position : Nat
  now : Nat

/-- Who called `io_take`. -/
inductive Back where
  | loop (turns : Nat)
  | wait (turns : Nat) (waiting : List Nat) (polls : List Poll)

/-- Where an effect or a pack was called. -/
inductive Site where
  | step (turns : Nat)
  | take (completed : List Nat) (back : Back)
  | drain (d : Drain)

/-- What an effect or a pack returns: a value or `IO_PARK`. -/
inductive Return where
  | value
  | park
  deriving DecidableEq

/-- Where the thread of the program is. -/
inductive Pc where
  /-- The head of the loop of `io_loop`. -/
  | turn (turns : Nat)
  /-- The call of `io_step` is next. -/
  | pop (turns : Nat)
  /-- The head of the loop of `io_step`. -/
  | step (turns : Nat) (action : Nat)
  /-- An effect or a pack runs. -/
  | effect (action : Nat) (site : Site)
  /-- An effect or a pack returned. -/
  | result (action : Nat) (site : Site) (returned : Return)
  /-- The loop of `io_take`. -/
  | take (completed : List Nat) (back : Back)
  /-- The loop of `tb_start_jobs`. -/
  | start (next : Pc)
  /-- The poll of `io_wait`. -/
  | poll (turns : Nat) (wake : Bool) (polls : List Poll)
  /-- The last loop of `io_wait` is next. -/
  | woken (turns : Nat) (waiting : List Nat) (polls : List Poll)
  | drain (d : Drain)
  /-- The message of a deadlock. -/
  | deadlock
  | returned (code : Int)

/-- The static variables, the actions by their addresses, and the threads. -/
structure Machine (P : Type) where
  acts : Nat → IoAct
  owned : List Nat
  runs : List Nat
  park : List Nat
  jobs : List Nat
  live : Nat
  busy : Nat
  rows : List (ChanRow P Nat)
  idle : Nat
  active : Nat
  completed : List Nat
  workers : List Nat
  workerFailed : Bool
  wakeFailed : Bool
  stopped : Bool
  pc : Pc

variable {P : Type}

namespace Machine

/-- `tb_io_initialize`. -/
def initial : Machine P where
  acts _ := ⟨0, 0, 0, 0⟩
  owned := []
  runs := []
  park := []
  jobs := []
  live := 0
  busy := 0
  rows := []
  idle := Channels.u32Max
  active := 0
  completed := []
  workers := []
  workerFailed := false
  wakeFailed := false
  stopped := false
  pc := .turn 0

variable (m : Machine P)

/-- An action is written. -/
def write (a : Nat) (act : IoAct) : Machine P := { m with acts := Function.update m.acts a act }

/-- The flag of an action is written. -/
def setParked (a parked : Nat) : Machine P := m.write a { m.acts a with parked }

/-- The thread of the program goes on. -/
def goTo (pc : Pc) : Machine P := { m with pc }

/-! ## 2. The functions -/

/-- `io_push` on `io_runs`. -/
def pushRun (a : Nat) : Machine P := { m with runs := m.runs ++ [a] }

/-- `io_spawn`, with the address that it is given. -/
def ioSpawn (a : Nat) : Except Fault (Machine P) :=
  if Channels.bendMaxActions ≤ m.live then .error (.Fail "activation budget exhausted")
  else
    let m := m.write a ⟨0, 0, 0, 0⟩
    .ok { m.pushRun a with owned := a :: m.owned, live := m.live + 1 }

/-- `io_dispose`. -/
def ioDispose (a : Nat) : Machine P := { m with owned := m.owned.erase a, live := m.live - 1 }

/-- `io_wait_on`. -/
def ioWaitOn (a : Nat) (descriptor : Int) (events : Nat) : Except Fault (Machine P) :=
  if (m.acts a).parked ≠ 0 ∨ descriptor < 0 then .error (.Fail "invalid readiness continuation")
  else .ok { m.write a ⟨0, events, descriptor, 1⟩ with park := m.park ++ [a] }

/-- The deadline of a timer, which is never zero. -/
def deadline (now delay : Nat) : Nat := if now + delay = 0 then 1 else now + delay

/-- `io_work`, up to its call of `tb_start_jobs`. -/
def ioWork (a : Nat) : Except Fault (Machine P) :=
  if (m.acts a).parked ≠ 0 then .error (.Fail "invalid worker continuation")
  else .ok { m.setParked a 2 with jobs := m.jobs ++ [a], busy := m.busy + 1 }

/-- The static variables of channels, with the actions whose flag is set. -/
def rings : Rings P Nat := ⟨m.rows, m.idle, m.owned.filter fun a => (m.acts a).parked ≠ 0⟩

/-- The rows after a call. -/
def setRings (s : Rings P Nat) : Machine P := { m with rows := s.rows, idle := s.idle }

/-- The flag of an action that is woken, and `io_push`. -/
def wake (w : Wake P Nat) : Machine P := (m.setParked w.continuation 0).pushRun w.continuation

/-- What `io_wait` writes for the actions that wait for a descriptor. -/
def pollsOf (actions : List Nat) : List Poll :=
  (actions.filter fun a => (m.acts a).time = 0).map fun a =>
    ⟨some a, (m.acts a).descriptor, (m.acts a).evts, 0⟩

/-- Whether an action of the snapshot goes on, and the position after it. -/
def due (d : Drain) (a : Nat) : Bool × Nat :=
  if (m.acts a).time ≠ 0 then (decide ((m.acts a).time ≤ d.now), d.position)
  else ((d.polls[d.position]?).any (·.revents ≠ 0), d.position + 1)

/-- The start of `io_take`: the completed actions are taken off. -/
def detach (back : Back) : Machine P := { m with completed := [], pc := .take m.completed back }

/-- `tb_io_release` stops the host. -/
def stop (code : Int) : Machine P := { m with stopped := true, pc := .returned code }

end Machine

/-- The entry for the wake descriptor. -/
def wakePolls (wake : Bool) (wakeRead : Int) (pollIn : Nat) : List Poll :=
  if wake then [⟨none, wakeRead, pollIn, 0⟩] else []

/-- `poll` fills in what is ready. -/
def answered (polls : List Poll) (ready : Nat → Nat) : List Poll :=
  polls.mapIdx fun i poll => { poll with revents := ready i }

/-- What an effect or a pack calls. -/
inductive Effect (P : Type) where
  /-- None of the functions of the scheduler. -/
  | plain
  | spawn (action : Nat)
  | chanNew (room : Nat)
  | send (raw : Nat) (payload : P)
  | recv (raw : Nat)
  | close (raw : Nat)
  | wait (descriptor : Int) (events : Nat)
  | work

namespace Machine

/-- The end of a call on a channel. -/
def served (m : Machine P) (a : Nat) (r : Transition P Nat × Rings P Nat) : Return × Machine P :=
  let m := r.1.wakes.foldl wake (m.setRings r.2)
  match r.1.outcome with
  | .Ready _ => (.value, m)
  | .Parked => (.park, m.setParked a 3)

/-- An effect or a pack of an action. -/
def perform (m : Machine P) (a : Nat) : Effect P → Except Fault (Return × Machine P)
  | .plain => .ok (.value, m)
  | .spawn action => do .ok (.value, ← m.ioSpawn action)
  | .chanNew room => do
    let (_, s) ← m.rings.open room
    .ok (.value, m.setRings s)
  | .send raw payload => do .ok (m.served a (← m.rings.send raw payload a))
  | .recv raw => do .ok (m.served a (← m.rings.recv raw a))
  | .close raw => do .ok (m.served a (← m.rings.close raw))
  | .wait descriptor events => do .ok (.park, ← m.ioWaitOn a descriptor events)
  | .work => do .ok (.park, ← m.ioWork a)

/-- The code behind a call of an effect or a pack. -/
def resume (m : Machine P) (a : Nat) : Site → Return → Machine P
  | .step turns, .value => m.goTo (.step turns a)
  | .step turns, .park => m.goTo (.turn (turns + 1))
  | .take completed back, .value => (m.pushRun a).goTo (.take completed back)
  | .take completed back, .park => m.goTo (.take completed back)
  | .drain d, .value => (m.pushRun a).goTo (.drain d)
  | .drain d, .park => m.goTo (.drain d)

end Machine

/-- `io_work` starts jobs before it returns. -/
def Effect.starting : Effect P → Pc → Pc
  | .work, pc => .start pc
  | _, pc => pc

/-- The code behind `io_take`. -/
def Back.pc : Back → Pc
  | .loop turns => .pop turns
  | .wait turns waiting polls => .woken turns waiting polls

/-! ## 3. Steps -/

/-- A step of a thread. -/
inductive Step : Machine P → Machine P → Prop where
  /-- Nothing is left to do. -/
  | finish {m : Machine P} {turns : Nat} (hpc : m.pc = .turn turns) (hruns : m.runs = [])
      (hlive : m.live = 0) : Step m (m.stop 0)
  | deadlock {m : Machine P} {turns : Nat} (hpc : m.pc = .turn turns) (hruns : m.runs = [])
      (hlive : m.live ≠ 0) (hpark : m.park = []) (hbusy : m.busy = 0) : Step m (m.goTo .deadlock)
  | giveUp {m : Machine P} (hpc : m.pc = .deadlock) : Step m (m.stop 1)
  /-- `io_wait`, up to its poll. -/
  | wait {m : Machine P} {turns : Nat} (hpc : m.pc = .turn turns) (hruns : m.runs = [])
      (hlive : m.live ≠ 0) (hpark : m.park ≠ [] ∨ m.busy ≠ 0) (wakeRead : Int) (pollIn : Nat) :
      Step m (m.goTo (.poll turns (decide (m.busy ≠ 0))
        (m.pollsOf m.park ++ wakePolls (decide (m.busy ≠ 0)) wakeRead pollIn)))
  /-- The poll found nothing for the wake descriptor. -/
  | polled {m : Machine P} {turns : Nat} {wake : Bool} {polls : List Poll}
      (hpc : m.pc = .poll turns wake polls) (ready : Nat → Nat)
      (hready : wake = false ∨ ready (m.pollsOf m.park).length = 0) (hwake : m.wakeFailed = false) :
      Step m ({ m with park := [] }.goTo (.woken turns m.park (answered polls ready)))
  /-- The poll found that a worker is ready. -/
  | notified {m : Machine P} {turns : Nat} {polls : List Poll}
      (hpc : m.pc = .poll turns true polls) (ready : Nat → Nat)
      (hready : ready (m.pollsOf m.park).length ≠ 0) (hwake : m.wakeFailed = false)
      (hworker : m.workerFailed = false) :
      Step m ({ m with park := [] }.detach (.wait turns m.park (answered polls ready)))
  /-- The time is taken after the packs of workers. -/
  | tick {m : Machine P} {turns : Nat} {waiting : List Nat} {polls : List Poll}
      (hpc : m.pc = .woken turns waiting polls) (now : Nat) :
      Step m (m.goTo (.drain ⟨turns, waiting, polls, 0, now⟩))
  /-- An action of the snapshot has to wait on. -/
  | notDue {m : Machine P} {d : Drain} {a : Nat} {waiting : List Nat} (hpc : m.pc = .drain d)
      (hwaiting : d.waiting = a :: waiting) (hdue : (m.due d a).1 = false) :
      Step m ({ m with park := m.park ++ [a] }.goTo
        (.drain { d with waiting, position := (m.due d a).2 }))
  | due {m : Machine P} {d : Drain} {a : Nat} {waiting : List Nat} (hpc : m.pc = .drain d)
      (hwaiting : d.waiting = a :: waiting) (hdue : (m.due d a).1 = true) :
      Step m ((m.setParked a 0).goTo
        (.effect a (.drain { d with waiting, position := (m.due d a).2 })))
  | drained {m : Machine P} {d : Drain} (hpc : m.pc = .drain d) (hwaiting : d.waiting = []) :
      Step m (m.goTo (.turn (d.turns + 1)))
  /-- Every 64 turns, `io_loop` looks for completed actions. -/
  | look {m : Machine P} {turns : Nat} (hpc : m.pc = .turn turns) (hruns : m.runs ≠ [])
      (hturn : turns % 64 = 0 ∧ m.busy ≠ 0) (hwake : m.wakeFailed = false)
      (hworker : m.workerFailed = false) : Step m (m.detach (.loop turns))
  | noLook {m : Machine P} {turns : Nat} (hpc : m.pc = .turn turns) (hruns : m.runs ≠ [])
      (hturn : ¬(turns % 64 = 0 ∧ m.busy ≠ 0)) : Step m (m.goTo (.pop turns))
  /-- The pack of a completed action. -/
  | take {m : Machine P} {a : Nat} {completed : List Nat} {back : Back}
      (hpc : m.pc = .take (a :: completed) back) :
      Step m ({ m.setParked a 0 with busy := m.busy - 1 }.goTo (.effect a (.take completed back)))
  | taken {m : Machine P} {back : Back} (hpc : m.pc = .take [] back) :
      Step m (m.goTo (.start back.pc))
  /-- A thread is created for a job. -/
  | start {m : Machine P} {next : Pc} {a : Nat} {jobs : List Nat} (hpc : m.pc = .start next)
      (hjobs : m.jobs = a :: jobs) (hactive : m.active < bendMaxWorkers) :
      Step m { m with jobs, active := m.active + 1, workers := m.workers ++ [a] }
  | started {m : Machine P} {next : Pc} (hpc : m.pc = .start next)
      (hdone : m.jobs = [] ∨ ¬m.active < bendMaxWorkers) : Step m (m.goTo next)
  | pop {m : Machine P} {turns a : Nat} {runs : List Nat} (hpc : m.pc = .pop turns)
      (hruns : m.runs = a :: runs) : Step m ({ m with runs }.goTo (.step turns a))
  /-- The computation of an action is over. -/
  | emit {m : Machine P} {turns a : Nat} (hpc : m.pc = .step turns a) :
      Step m ((m.ioDispose a).goTo (.turn (turns + 1)))
  | halt {m : Machine P} {turns a : Nat} (hpc : m.pc = .step turns a) (code : Int) :
      Step m (m.stop code)
  /-- A request that needs nothing. -/
  | request {m : Machine P} {turns a : Nat} (hpc : m.pc = .step turns a) :
      Step m (m.goTo (.effect a (.step turns)))
  /-- A request that needs its descriptor to be ready. -/
  | needRead {m m' : Machine P} {turns a : Nat} (hpc : m.pc = .step turns a) (descriptor : Int)
      (pollIn : Nat) (hwait : m.ioWaitOn a descriptor pollIn = .ok m') :
      Step m (m'.goTo (.turn (turns + 1)))
  /-- A request that needs time. -/
  | needTime {m m' : Machine P} {turns a : Nat} (hpc : m.pc = .step turns a) (first pollIn : Nat)
      (hwait : m.ioWaitOn a first pollIn = .ok m') (now : Nat)
      (hdelay : now + first % 2 ^ 32 * 1000000 < 2 ^ 64) :
      Step m ((m'.write a { m'.acts a with
        time := Machine.deadline now (first % 2 ^ 32 * 1000000) }).goTo (.turn (turns + 1)))
  /-- An effect or a pack runs, and a new action is given memory that nobody has. -/
  | perform {m m' : Machine P} {a : Nat} {site : Site} {result : Return}
      (hpc : m.pc = .effect a site) (effect : Effect P)
      (hfresh : ∀ action, effect = .spawn action → action ∉ m.owned)
      (hresult : m.perform a effect = .ok (result, m')) :
      Step m (m'.goTo (effect.starting (.result a site result)))
  /-- The code behind the call. -/
  | resume {m : Machine P} {a : Nat} {site : Site} {result : Return}
      (hpc : m.pc = .result a site result)
      (hpark : result = .park → (m.acts a).parked ≠ 0) : Step m (m.resume a site result)
  /-- A worker ends; it may leave a failure. -/
  | worker {m : Machine P} {i a : Nat} (hworker : m.workers[i]? = some a)
      (workerFailed wakeFailed : Bool) :
      Step m { m with
        workers := m.workers.eraseIdx i
        active := m.active - 1
        completed := if m.stopped then m.completed else m.completed ++ [a]
        workerFailed := m.workerFailed || workerFailed
        wakeFailed := m.wakeFailed || wakeFailed }

/-- The states that `io_loop` reaches. -/
inductive Reached : Machine P → Prop where
  | main {m : Machine P} {a : Nat} (h : Machine.initial.ioSpawn a = .ok m) : Reached m
  | step {m m' : Machine P} (h : Reached m) (hstep : Step m m') : Reached m'

end TeamyBend.Runtime.IoLoop
