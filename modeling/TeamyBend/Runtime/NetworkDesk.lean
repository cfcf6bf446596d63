/-
# The desk of the network requests

What the request code of the driver does to the network and to the numbers of the waits, as a
sequence of calls.  `Desk` is the scheduler and the network with the resource that the step in
progress has in its hands and with the handles that were closed, and `Act` is one call.  Every
step of the driver is a sequence of calls that begins and ends with empty hands
(`Machine.step_acts`), so what every call keeps holds in every state of a run and also between
the calls of a step.
-/
import TeamyBend.Runtime.Driver
import Mathlib.Logic.Relation
import Mathlib.Algebra.Order.Ring.Nat

namespace TeamyBend.Runtime.Driver

variable {T : Type}

/-! ## 1. Calls -/

/-- The scheduler and the network in the middle of a step. -/
structure Desk (T : Type) where
  scheduler : Scheduler.State T
  network : Network.State T
  /-- What was taken and not put back yet, with its handle when it has one. -/
  hand : Option (Network.Resource × Option Nat)
  /-- The handles that were closed. -/
  closed : List Nat

namespace Desk

/-- Nothing was opened. -/
def default : Desk T := ⟨.default, .default, none, []⟩

/-- One call of the request code. -/
inductive Act : Desk T → Desk T → Prop where
  /-- The tasks of the scheduler move, and no wait does. -/
  | tasks {d : Desk T} {scheduler : Scheduler.State T}
      (htimers : scheduler.timers = d.scheduler.timers)
      (hnext : scheduler.nextWait = d.scheduler.nextWait) : Act d { d with scheduler }
  | sleep {d : Desk T} {deadline : Nat} {action : T} {scheduler : Scheduler.State T}
      (h : d.scheduler.sleep deadline action = .ok scheduler) : Act d { d with scheduler }
  | wake {d : Desk T} (now order : Nat) :
      Act d { d with scheduler := d.scheduler.wakeBefore now order }
  /-- A descriptor that the host opened goes to the table. -/
  | insert {d : Desk T} {resource : Network.Resource} {handle : Nat} {network : Network.State T}
      (h : d.network.insert resource = .ok (handle, network)) : Act d { d with network }
  | take {d : Desk T} {resource : Network.Resource} {handle : Nat} {network : Network.State T}
      (hhand : d.hand = none) (h : d.network.take handle = .ok (resource, network)) :
      Act d { d with network, hand := some (resource, some handle) }
  /-- A descriptor that the host opened and that is not connected yet. -/
  | receive {d : Desk T} {resource : Network.Resource} (hhand : d.hand = none) :
      Act d { d with hand := some (resource, none) }
  | restore {d : Desk T} {resource : Network.Resource} {handle : Nat} {network : Network.State T}
      (hhand : d.hand = some (resource, some handle))
      (h : d.network.restore handle resource = .ok network) :
      Act d { d with network, hand := none }
  /-- A connection parks without a handle, every other request with one. -/
  | park {d : Desk T} {order : Nat} {request : Network.Request T}
      {scheduler : Scheduler.State T} {network : Network.State T}
      (hhand : d.hand = some (request.resource, request.handle))
      (hconnect : request.operation = .Connect → request.handle = none)
      (hreserve : d.scheduler.reserveWait = .ok (order, scheduler))
      (hpark : d.network.park order request = .ok network) :
      Act d { d with scheduler, network, hand := none }
  | takePending {d : Desk T} {order : Nat} {request : Network.Request T}
      {network : Network.State T} (hhand : d.hand = none)
      (h : d.network.takePending order = .ok (request, network)) :
      Act d { d with network, hand := some (request.resource, request.handle) }
  /-- A connection is there and gets its handle. -/
  | settle {d : Desk T} {resource : Network.Resource} {handle : Nat} {network : Network.State T}
      (hhand : d.hand = some (resource, none))
      (h : d.network.insert resource = .ok (handle, network)) :
      Act d { d with network, hand := none }
  /-- A connection failed. -/
  | giveUp {d : Desk T} {resource : Network.Resource} (hhand : d.hand = some (resource, none)) :
      Act d { d with hand := none }
  | close {d : Desk T} {resource : Network.Resource} {handle : Nat}
      (hhand : d.hand = some (resource, some handle)) :
      Act d { d with hand := none, closed := handle :: d.closed }

/-- Calls one after the other. -/
abbrev Acts : Desk T → Desk T → Prop := Relation.ReflTransGen Act

/-- The desks that calls reach from the first. -/
def Reached (d : Desk T) : Prop := Acts default d

end Desk

/-! ## 2. Results -/

theorem bind_eq_ok {α β ε : Type} {x : Except ε α} {f : α → Except ε β} {b : β}
    (h : x >>= f = .ok b) : ∃ a, x = .ok a ∧ f a = .ok b := by
  cases x with
  | error e => cases h
  | ok a => exact ⟨a, rfl, h⟩

theorem lift_eq_ok {α : Type} {x : Except KernelError α} {a : α} (h : lift x = .ok a) :
    x = .ok a := by
  cases x with
  | error e => cases h
  | ok b =>
    cases h
    rfl

/-- A call of a modelled part that went through. -/
theorem lift_bind_eq_ok {α β : Type} {x : Except KernelError α} {f : α → Except Failure β} {b : β}
    (h : lift x >>= f = .ok b) : ∃ a, x = .ok a ∧ f a = .ok b := by
  obtain ⟨a, ha, hf⟩ := bind_eq_ok h
  exact ⟨a, lift_eq_ok ha, hf⟩

/-! ## 3. Steps of the driver -/

/-- The ready requests that the driver still has to resume. -/
def Phase.polled : Phase T → List Nat
  | .jobs (some orders) | .waiting (some orders) | .network orders _ => orders
  | _ => []

namespace Machine

/-- The desk between two steps. -/
def desk (m : Machine T) (closed : List Nat) : Desk T := ⟨m.scheduler, m.network, none, closed⟩

/-- The calls that lead from one machine to another, from empty hands to empty hands. -/
def Acts (m m' : Machine T) : Prop :=
  ∀ closed, ∃ closed', Desk.Acts (m.desk closed) (m'.desk closed')

/-- What a request does: calls, and the driver goes to a place without polled requests. -/
structure Handles (m m' : Machine T) : Prop where
  acts : m.Acts m'
  polled : m'.phase.polled = []

variable {m m' : Machine T} {w : World T}

theorem Acts.one (h : ∀ closed, Desk.Act (m.desk closed) (m'.desk closed)) : m.Acts m' :=
  fun closed => ⟨closed, .single (h closed)⟩

/-- A change of the tasks alone. -/
theorem Acts.tasks (htimers : m'.scheduler.timers = m.scheduler.timers)
    (hnext : m'.scheduler.nextWait = m.scheduler.nextWait) (hnetwork : m'.network = m.network) :
    m.Acts m' := by
  refine .one fun closed => ?_
  have hact := Desk.Act.tasks (d := m.desk closed) htimers hnext
  have heq : m'.desk closed = { m.desk closed with scheduler := m'.scheduler } := by
    rw [desk, hnetwork, desk]
  rwa [heq]

theorem Acts.refl (hscheduler : m'.scheduler = m.scheduler) (hnetwork : m'.network = m.network) :
    m.Acts m' :=
  .tasks (by rw [hscheduler]) (by rw [hscheduler]) hnetwork

/-! ### Requests -/

/-- The desk with a request in the hands. -/
def holding (m : Machine T) (closed : List Nat) (request : Network.Request T) : Desk T :=
  { m.desk closed with hand := some (request.resource, request.handle) }

/-- What waits again is no connection. -/
theorem waitsWith_ne_connect {operation again : Network.Operation}
    (h : waitsWith w operation = some again) : again ≠ .Connect := by
  rintro rfl
  cases operation with
  | Connect => cases h
  | Send data offset =>
    simp only [waitsWith] at h
    split at h
    · cases h
    · obtain ⟨_, _, heq⟩ := Option.map_eq_some_iff.mp h
      cases heq
  | Accept | Recv | SendTo | RecvFrom =>
    obtain ⟨_, _, heq⟩ := Option.map_eq_some_iff.mp h
    cases heq

theorem parkNetwork_acts {request : Network.Request T} (h : m.parkNetwork request = .ok m')
    (hconnect : request.operation = .Connect → request.handle = none) (closed : List Nat) :
    Desk.Act (m.holding closed request) (m'.desk closed) ∧ m'.phase = m.phase := by
  obtain ⟨⟨order, scheduler⟩, hreserve, h⟩ := lift_bind_eq_ok h
  obtain ⟨network, hpark, h⟩ := lift_bind_eq_ok h
  cases h
  exact ⟨.park rfl hconnect hreserve hpark, rfl⟩

/-- A socket that was accepted is inserted. -/
theorem acceptSocket_acts {operation : Network.Operation} {network : Network.State T}
    (h : acceptSocket w m.network operation = .ok network) (closed : List Nat)
    (request : Network.Request T) :
    Desk.Acts (m.holding closed request) ({ m with network }.holding closed request) := by
  unfold acceptSocket at h
  split at h
  · obtain ⟨⟨handle, network'⟩, hinsert, h⟩ := lift_bind_eq_ok h
    cases h
    exact .single (.insert hinsert)
  · cases h
    exact .refl

/-- A request in the hands is parked again, or its resource goes back. -/
theorem advanceNetwork_acts {request : Network.Request T} {isAnswered : Bool}
    (h : advanceNetwork w m request = .ok (isAnswered, m'))
    (hconnect : request.operation = .Connect → request.handle = none) (closed : List Nat) :
    Desk.Acts (m.holding closed request) (m'.desk closed) ∧ m'.phase = m.phase := by
  obtain ⟨_, _, h⟩ := bind_eq_ok h
  split at h
  · rename_i operation hwaits
    obtain ⟨parked, hpark, h⟩ := bind_eq_ok h
    cases h
    obtain ⟨hact, hphase⟩ := parkNetwork_acts hpark
      (fun heq => absurd heq (waitsWith_ne_connect hwaits)) closed
    exact ⟨.single hact, hphase⟩
  · split at h
    · rename_i hoperation
      have hhand := congrArg (fun handle => some (request.resource, handle)) (hconnect hoperation)
      split at h
      · obtain ⟨⟨handle, network⟩, hinsert, h⟩ := lift_bind_eq_ok h
        cases h
        exact ⟨.single (.settle hhand hinsert), rfl⟩
      · cases h
        exact ⟨.single (.giveUp hhand), rfl⟩
    · obtain ⟨network, haccept, h⟩ := bind_eq_ok h
      split at h
      · cases h
      · rename_i handle hhandle
        obtain ⟨network', hrestore, h⟩ := lift_bind_eq_ok h
        cases h
        have hhand := congrArg (fun handle => some (request.resource, handle)) hhandle
        exact ⟨(acceptSocket_acts haccept closed request).tail (.restore hhand hrestore), rfl⟩

theorem Handles.proceed (h : m.Acts m') (w : World T) : m.Handles (m'.proceed w) := ⟨h, rfl⟩

theorem Handles.yield (h : m.Acts m') : m.Handles m'.yield := ⟨h, rfl⟩

/-- A resource is taken and its request parked. -/
theorem takeAndPark_handles {handle : Nat} {continuation : T} {operation : Network.Operation}
    (h : m.takeAndPark handle continuation operation = .ok m') (hconnect : operation ≠ .Connect) :
    m.Handles m' := by
  obtain ⟨⟨resource, network⟩, htake, h⟩ := lift_bind_eq_ok h
  obtain ⟨parked, hpark, h⟩ := bind_eq_ok h
  cases h
  refine .yield fun closed => ⟨closed, ?_⟩
  obtain ⟨hact, -⟩ := parkNetwork_acts hpark (fun heq => absurd heq hconnect) closed
  exact .head (.take rfl htake) (.single hact)

/-- A request is tried, and parked if it has to wait. -/
theorem takeAndAdvance_handles {handle : Nat} {continuation : T} {operation : Network.Operation}
    (h : takeAndAdvance w m handle continuation operation = .ok m')
    (hconnect : operation ≠ .Connect) : m.Handles m' := by
  obtain ⟨⟨resource, network⟩, htake, h⟩ := lift_bind_eq_ok h
  obtain ⟨⟨isAnswered, next⟩, hadvance, h⟩ := bind_eq_ok h
  cases h
  have hacts : m.Acts next := fun closed =>
    have ⟨hrest, _⟩ := advanceNetwork_acts hadvance (fun heq => absurd heq hconnect) closed
    ⟨closed, .head (.take rfl htake) hrest⟩
  cases isAnswered with
  | true => exact .proceed hacts w
  | false => exact .yield hacts

/-- A new resource gets a handle. -/
theorem openResource_handles {resource : Network.Resource}
    (h : openResource w m resource = .ok m') : m.Handles m' := by
  unfold openResource at h
  split at h
  · obtain ⟨⟨handle, network⟩, hinsert, h⟩ := lift_bind_eq_ok h
    cases h
    exact ⟨.one fun closed => .insert hinsert, rfl⟩
  · cases h
    exact .proceed (.refl rfl rfl) w

theorem closeResource_handles {handle : Nat} (h : closeResource w m handle = .ok m') :
    m.Handles m' := by
  obtain ⟨⟨resource, network⟩, htake, h⟩ := lift_bind_eq_ok h
  cases h
  exact ⟨fun closed => ⟨handle :: closed, .head (.take rfl htake) (.single (.close rfl))⟩, rfl⟩

theorem pollNetwork_handles {handle : Nat} (h : pollNetwork w m handle = .ok m') :
    m.Handles m' := by
  obtain ⟨⟨resource, network⟩, htake, h⟩ := lift_bind_eq_ok h
  obtain ⟨network', hrestore, h⟩ := lift_bind_eq_ok h
  obtain ⟨_, _, h⟩ := bind_eq_ok h
  cases h
  exact ⟨fun closed => ⟨closed, .head (.take rfl htake) (.single (.restore rfl hrestore))⟩, rfl⟩

/-- A connection is parked without a handle. -/
theorem connect_handles {continuation : T} (h : connect w m continuation = .ok m') :
    m.Handles m' := by
  unfold connect at h
  split at h
  · obtain ⟨parked, hpark, h⟩ := bind_eq_ok h
    cases h
    refine .yield fun closed => ⟨closed, ?_⟩
    obtain ⟨hact, -⟩ := parkNetwork_acts hpark (fun _ => rfl) closed
    exact .head (.receive rfl) (.single hact)
  · exact openResource_handles h

theorem submitJob_handles {continuation : T} {handle : Option Nat}
    (h : m.submitJob continuation handle = .ok m') : m.Handles m' := by
  obtain ⟨jobs, _, h⟩ := lift_bind_eq_ok h
  cases h
  exact ⟨.refl rfl rfl, rfl⟩

/-- Neither has a channel. -/
theorem transition_handles
    {r : Except KernelError (Channels.Transition T T) × Channels.State T T}
    (h : m.transition r = .ok m') : m.Handles m' := by
  match r, h with
  | (.ok t, channels), h =>
    cases h
    exact ⟨.refl rfl rfl, rfl⟩

theorem openChannel_handles {room : Nat} (h : openChannel w m room = .ok m') : m.Handles m' := by
  unfold openChannel at h
  split at h
  · cases h
  · cases h
    exact ⟨.refl rfl rfl, rfl⟩

theorem sleepRequest_handles {milliseconds : Nat} (h : sleepRequest w m milliseconds = .ok m') :
    m.Handles m' := by
  unfold sleepRequest at h
  split at h
  · cases h
  · obtain ⟨scheduler, hsleep, h⟩ := lift_bind_eq_ok h
    cases h
    exact ⟨.one fun closed => .sleep hsleep, rfl⟩

/-- Only `sleep` and `reserve_wait` arm a timer or give out a number. -/
theorem spawn_waits {s s' : Scheduler.State T} {action : T} (h : s.spawn action = .ok s') :
    s'.timers = s.timers ∧ s'.nextWait = s.nextWait := by
  unfold Scheduler.State.spawn at h
  split at h
  · cases h
  · cases h
    exact ⟨rfl, rfl⟩

theorem spawnRequest_handles (h : spawnRequest w m = .ok m') : m.Handles m' := by
  obtain ⟨scheduler, hspawn, h⟩ := lift_bind_eq_ok h
  cases h
  obtain ⟨htimers, hnext⟩ := spawn_waits hspawn
  exact ⟨.tasks htimers hnext rfl, rfl⟩

/-- **A request is a sequence of calls.** -/
theorem ioRequest_handles {request : Foreign T} {continuation : T}
    (h : ioRequest w m request continuation = .ok m') : m.Handles m' := by
  cases request with
  | Print | Write | PrintErr | Now | GetEnv | FileClose =>
    cases h
    exact .proceed (.refl rfl rfl) w
  | Spawn action => exact spawnRequest_handles h
  | Sleep milliseconds => exact sleepRequest_handles h
  | ChanNew room => exact openChannel_handles h
  | ChanSend channel payload => exact transition_handles h
  | ChanRecv channel => exact transition_handles h
  | ChanClose channel =>
    exact transition_handles (r := Prod.map .ok id (m.channels.close channel)) h
  | FileOpen =>
    simp only [ioRequest] at h
    split at h
    · exact submitJob_handles h
    · cases h
      exact .proceed (.refl rfl rfl) w
  | FileRead file | FileReadBytes file | FileWrite file => exact submitJob_handles h
  | TcpListen => exact openResource_handles h
  | UdpBind => exact openResource_handles h
  | TcpConnect => exact connect_handles h
  | TcpAccept listener => exact takeAndPark_handles h (by decide)
  | TcpRecv socket max => exact takeAndPark_handles h (fun heq => by cases heq)
  | UdpRecvFrom socket max => exact takeAndPark_handles h (fun heq => by cases heq)
  | TcpSend socket data => exact takeAndAdvance_handles h (fun heq => by cases heq)
  | UdpSendTo socket host port data => exact takeAndAdvance_handles h (fun heq => by cases heq)
  | UdpPoll socket => exact pollNetwork_handles h
  | SocketClose handle | ListenerClose handle => exact closeResource_handles h

/-! ### Phases -/

/-- Taking a task changes no wait. -/
theorem next_waits {s s' : Scheduler.State T} {action : T} (h : s.next = some (action, s')) :
    s'.timers = s.timers ∧ s'.nextWait = s.nextWait := by
  unfold Scheduler.State.next at h
  split at h
  · cases h
  · cases h
    exact ⟨rfl, rfl⟩

theorem resume_eq_ok {s s' : Scheduler.State T} {action : T} (h : s.resume action = .ok s') :
    s' = { s with ready := s.ready ++ [action] } := by
  unfold Scheduler.State.resume at h
  split at h
  · cases h
  · cases h
    rfl

theorem resume_waits {s s' : Scheduler.State T} {action : T} (h : s.resume action = .ok s') :
    s'.timers = s.timers ∧ s'.nextWait = s.nextWait := by
  rw [resume_eq_ok h]
  exact ⟨rfl, rfl⟩

/-- Nor does the end of one. -/
theorem complete_waits {s s' : Scheduler.State T} (h : s.complete = .ok s') :
    s'.timers = s.timers ∧ s'.nextWait = s.nextWait := by
  unfold Scheduler.State.complete at h
  split at h
  · cases h
  · cases h
    exact ⟨rfl, rfl⟩

theorem nextTask_handles (m : Machine T) : m.Handles m.nextTask := by
  unfold nextTask
  split
  · rename_i current scheduler hnext
    obtain ⟨htimers, hwait⟩ := next_waits hnext
    exact ⟨.tasks htimers hwait rfl, rfl⟩
  · split
    · exact ⟨.refl rfl rfl, rfl⟩
    · exact ⟨.refl rfl rfl, rfl⟩

theorem turn_handles (m : Machine T) : m.Handles m.turn := by
  unfold turn
  simp only
  split
  · exact ⟨.refl rfl rfl, rfl⟩
  · obtain ⟨hacts, hpolled⟩ := nextTask_handles { m with turns := (m.turns + 1) % 256 }
    exact ⟨hacts, hpolled⟩

/-- **A request of a task is an act of the desk.** -/
theorem runTask_handles (h : runTask w m = .ok m') : m.Handles m' := by
  unfold runTask at h
  split at h
  · obtain ⟨scheduler, hcomplete, h⟩ := lift_bind_eq_ok h
    cases h
    obtain ⟨htimers, hwait⟩ := complete_waits hcomplete
    exact ⟨.tasks htimers hwait rfl, rfl⟩
  · cases h
    exact ⟨.refl rfl rfl, rfl⟩
  · exact ioRequest_handles h

/-- A task that a channel wakes changes no wait. -/
theorem wakeNext_handles {outcome : Channels.Outcome T} {wakes : List (Channels.Wake T T)}
    (h : wakeNext w m outcome wakes = .ok m') : m.Handles m' := by
  cases wakes with
  | nil =>
    cases outcome with
    | Ready answer =>
      cases h
      exact .proceed (.refl rfl rfl) w
    | Parked =>
      cases h
      exact .yield (.refl rfl rfl)
  | cons wake wakes =>
    obtain ⟨scheduler, hresume, h⟩ := lift_bind_eq_ok h
    cases h
    obtain ⟨htimers, hwait⟩ := resume_waits hresume
    exact ⟨.tasks htimers hwait rfl, rfl⟩

/-- The host jobs leave the waits alone and keep what was polled. -/
theorem resumeHostJob_acts {polled : Option (List Nat)} (hphase : m.phase = .jobs polled)
    (h : resumeHostJob w m polled = .ok m') :
    m.Acts m' ∧ m'.network = m.network ∧ m'.phase.polled = m.phase.polled := by
  obtain ⟨completed, _, h⟩ := lift_bind_eq_ok h
  cases completed with
  | some answer =>
    obtain ⟨scheduler, hresume, h⟩ := lift_bind_eq_ok h
    cases h
    obtain ⟨htimers, hwait⟩ := resume_waits hresume
    exact ⟨.tasks htimers hwait rfl, rfl, rfl⟩
  | none =>
    cases polled with
    | none =>
      cases h
      obtain ⟨hacts, hpolled⟩ := nextTask_handles m
      refine ⟨hacts, ?_, by rw [hpolled, hphase]; rfl⟩
      unfold nextTask
      split
      · rfl
      · split <;> rfl
    | some orders =>
      cases h
      exact ⟨.refl rfl rfl, rfl, by rw [hphase]; rfl⟩

/-- What is taken waited. -/
theorem takePending_lookup {s s' : Network.State T} {order : Nat} {request : Network.Request T}
    (h : s.takePending order = .ok (request, s')) : s.pending.lookup order = some request := by
  unfold Network.State.takePending at h
  split at h
  · cases h
  · rename_i hlookup
    cases h
    exact hlookup

theorem poll_network (w : World T) (m : Machine T) (polled : Option (List Nat)) :
    (poll w m polled).scheduler = m.scheduler ∧ (poll w m polled).network = m.network := by
  cases polled with
  | none => exact ⟨rfl, rfl⟩
  | some ready => exact ⟨rfl, rfl⟩

/-- The rest of a turn of `wait_for_task` polls the network again, or polls nothing. -/
theorem wait_network (w : World T) (m : Machine T) :
    (wait w m).scheduler = m.scheduler ∧ (wait w m).network = m.network ∧
      ((wait w m).phase.polled = [] ∨ (wait w m).phase.polled = m.network.poll w.ready) := by
  unfold wait
  split
  · exact ⟨rfl, rfl, .inl rfl⟩
  · split
    · exact ⟨rfl, rfl, .inr rfl⟩
    · split
      · exact ⟨rfl, rfl, .inl rfl⟩
      · split
        · exact ⟨rfl, rfl, .inl rfl⟩
        · exact ⟨rfl, rfl, .inl rfl⟩

/-- A turn of `resume_network`: the timers before the order wake, the request is taken and
advanced, and its task wakes when it is answered. -/
theorem resumeNetwork_eq_ok {order : Nat} {orders : List Nat} {now : Nat}
    (h : resumeNetwork w m now (order :: orders) = .ok m') :
    ∃ request network isAnswered next,
      m.network.takePending order = .ok (request, network) ∧
      advanceNetwork w { m with scheduler := m.scheduler.wakeBefore now order, network } request =
        .ok (isAnswered, next) ∧
      (if isAnswered then next.scheduler.resume w.allocated else .ok next.scheduler) =
        .ok m'.scheduler ∧
      m' = { next with scheduler := m'.scheduler, phase := .network orders now } := by
  obtain ⟨⟨request, network⟩, htake, h⟩ := lift_bind_eq_ok h
  obtain ⟨⟨isAnswered, next⟩, hadvance, h⟩ := bind_eq_ok h
  refine ⟨request, network, isAnswered, next, htake, hadvance, ?_⟩
  cases isAnswered with
  | false =>
    cases h
    exact ⟨rfl, rfl⟩
  | true =>
    obtain ⟨scheduler, hresume, h⟩ := lift_bind_eq_ok h
    cases h
    exact ⟨hresume, rfl⟩

/-- **A request that is tried again** is an act of the desk. -/
theorem resumeNetwork_acts {order : Nat} {orders : List Nat} {now : Nat}
    (h : resumeNetwork w m now (order :: orders) = .ok m')
    (hconnect : ∀ request, m.network.pending.lookup order = some request →
      request.operation = .Connect → request.handle = none) : m.Acts m' := by
  obtain ⟨request, network, isAnswered, next, htake, hadvance, hresume, heq⟩ :=
    resumeNetwork_eq_ok h
  intro closed
  obtain ⟨hrest, -⟩ :=
    advanceNetwork_acts hadvance (hconnect request (takePending_lookup htake)) closed
  have htaken : Desk.Acts (m.desk closed) (next.desk closed) :=
    .head (.wake now order) (.head (.takePending rfl htake) hrest)
  refine ⟨closed, ?_⟩
  rw [heq]
  cases isAnswered with
  | false =>
    have hsame : m'.scheduler = next.scheduler := by
      simpa using hresume.symm
    rw [hsame]
    exact htaken
  | true =>
    obtain ⟨htimers, hwait⟩ := resume_waits hresume
    exact htaken.tail (.tasks htimers hwait)

/-- **A step of the driver is a sequence of calls**, from empty hands to empty hands. -/
theorem step_acts (h : step w m = .ok m')
    (hconnect : ∀ order request, m.network.pending.lookup order = some request →
      request.operation = .Connect → request.handle = none) : m.Acts m' := by
  unfold step at h
  split at h
  · cases h
  · split at h
    · cases h
      exact (turn_handles m).acts
    · rename_i hphase
      exact (resumeHostJob_acts hphase h).1
    · exact (runTask_handles h).acts
    · exact (wakeNext_handles h).acts
    · rename_i polled hphase
      cases h
      obtain ⟨hscheduler, hnetwork⟩ := poll_network w m polled
      exact .refl hscheduler hnetwork
    · rename_i orders now hphase
      cases orders with
      | cons order orders => exact resumeNetwork_acts h (hconnect order)
      | nil =>
        cases h
        obtain ⟨hscheduler, hnetwork, -⟩ :=
          wait_network w { m with scheduler := m.scheduler.wake now }
        refine .one fun closed => ?_
        have heq : (wait w { m with scheduler := m.scheduler.wake now }).desk closed =
            { m.desk closed with scheduler := m.scheduler.wakeBefore now u64Max } := by
          rw [desk, hscheduler, hnetwork]
          rfl
        rw [heq]
        exact .wake now u64Max
    · cases h
      exact .refl rfl rfl

end Machine

end TeamyBend.Runtime.Driver
