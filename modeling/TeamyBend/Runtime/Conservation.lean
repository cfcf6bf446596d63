/-
# No task is lost or counted twice

`scheduler.live` counts the tasks of a run, and five subsystems hold them: the ready queue and the
timers of the scheduler, the channels, the host jobs and the network.  `Holds m k` says that the
count is what they hold and `k` tasks in flight between them, and every operation moves tasks
between the two sides (`Safe` also says that it never runs into a count that cannot be).
`Balanced` reads the tasks in flight off the place where the driver is; it is an invariant of
every run.
-/
import TeamyBend.Runtime.Driver
import TeamyBend.Runtime.ChannelsWaiting

namespace TeamyBend.Runtime.Driver

open Channels (Outcome Wake)

variable {T : Type}

/-! ## 1. Tasks in flight -/

/-- The tasks that no queue holds while the driver is at a place. -/
def Phase.inFlight : Phase T → Nat
  | .running _ => 1
  | .waking wakes (.Ready _) => wakes.length + 1
  | .waking wakes .Parked => wakes.length
  | .done (.Halted _) => 1
  | _ => 0

namespace Machine

/-- How many tasks the queues hold. -/
def held (m : Machine T) : Nat :=
  m.scheduler.held + m.channels.waiting + m.jobs.held + m.network.held

/-- The queues hold all tasks but `k`. -/
structure Holds (m : Machine T) (k : Nat) : Prop where
  count : m.scheduler.live = m.held + k
  limit : m.scheduler.live ≤ arenaLimit
  quiet : m.channels.Quiet
  fresh : m.jobs.Fresh

end Machine

/-- The two errors of a wrong count. -/
def Miscount (e : KernelError) : Prop :=
  e = .new "invalid native scheduler wake count" ∨ e = .new "invalid native scheduler task count"

instance (e : KernelError) : Decidable (Miscount e) := inferInstanceAs (Decidable (_ ∨ _))

/-- The result has the property, or the run ends for another reason than a wrong count. -/
def Safe {α : Type} (r : Except Failure α) (Q : α → Prop) : Prop :=
  match r with
  | .ok a => Q a
  | .error (.kernel e) => ¬Miscount e
  | .error .outside => True

section Safe

variable {α β : Type} {Q : α → Prop} {R : β → Prop}

theorem safe_ok {a : α} (h : Q a) : Safe (.ok a) Q := h

theorem safe_pure {a : α} (h : Q a) : Safe (pure a) Q := h

theorem safe_error {text : String} (h : ¬Miscount (.new text)) :
    Safe (.error (.kernel (.new text)) : Except Failure α) Q := h

/-- What follows starts from a result of the first part. -/
theorem Safe.bind {r : Except Failure α} {f : α → Except Failure β} (hr : Safe r Q)
    (hf : ∀ a, Q a → Safe (f a) R) : Safe (r >>= f) R := by
  cases r with
  | ok a => exact hf a hr
  | error e =>
    cases e with
    | kernel e => exact hr
    | outside => exact trivial

theorem safe_lift {r : Except KernelError α} (hok : ∀ a, r = .ok a → Q a)
    (herror : ∀ e, r = .error e → ¬Miscount e) : Safe (lift r) Q := by
  cases r with
  | ok a => exact hok a rfl
  | error e => exact herror e rfl

theorem Safe.imp {Q' : α → Prop} {r : Except Failure α} (hr : Safe r Q) (h : ∀ a, Q a → Q' a) :
    Safe r Q' := by
  match r, hr with
  | .ok a, hr => exact h a hr
  | .error (.kernel _), hr => exact hr
  | .error .outside, _ => trivial

end Safe

/-! ## 2. The operations of the queues -/

section Queues

variable {action : T}

/-- A task is spawned, or the arena is full. -/
theorem safe_spawn (s : Scheduler.State T) (action : T) : Safe (lift (s.spawn action)) fun s' =>
    s'.held = s.held + 1 ∧ s'.live = s.live + 1 ∧ s.live < arenaLimit := by
  refine safe_lift (fun s' hs' => Scheduler.State.held_spawn hs') fun e he => ?_
  unfold Scheduler.State.spawn at he
  split at he
  · cases he
    decide
  · cases he

/-- A wake is safe while a task is in flight. -/
theorem safe_resume {s : Scheduler.State T} (h : s.held < s.live) (action : T) :
    Safe (lift (s.resume action)) fun s' => s'.held = s.held + 1 ∧ s'.live = s.live := by
  obtain ⟨s', hs'⟩ : ∃ s', s.resume action = .ok s' := Scheduler.State.resume_ok h
  rw [hs']
  exact Scheduler.State.held_resume hs'

theorem safe_complete {s : Scheduler.State T} (h : 0 < s.live) :
    Safe (lift s.complete) fun s' => s'.held = s.held ∧ s.live = s'.live + 1 := by
  obtain ⟨s', hs'⟩ := Scheduler.State.complete_ok h
  rw [hs']
  exact Scheduler.State.held_complete hs'

/-- A wait is refused only when its numbers are used up. -/
theorem reserveWait_error {s : Scheduler.State T} {e : KernelError} (h : s.reserveWait = .error e) :
    e = .new "native wait identity exhausted" := by
  unfold Scheduler.State.reserveWait at h
  split at h
  · cases h
    rfl
  · cases h

theorem safe_reserveWait (s : Scheduler.State T) : Safe (lift s.reserveWait) fun r =>
    r.2.held = s.held ∧ r.2.live = s.live := by
  refine safe_lift (fun r hr => ?_) fun e he => ?_
  · obtain ⟨hready, htimers, hlive⟩ := Scheduler.State.held_reserveWait hr
    exact ⟨by rw [Scheduler.State.held, hready, htimers, Scheduler.State.held], hlive⟩
  · rw [reserveWait_error he]
    decide

/-- The continuation of a sleep goes to the timers. -/
theorem safe_sleep (s : Scheduler.State T) (deadline : Nat) (action : T) :
    Safe (lift (s.sleep deadline action)) fun s' => s'.held = s.held + 1 ∧ s'.live = s.live := by
  refine safe_lift (fun s' hs' => Scheduler.State.held_sleep hs') fun e he => ?_
  unfold Scheduler.State.sleep at he
  split at he
  · cases he
    decide
  · cases hr : s.reserveWait with
    | error e' =>
      rw [hr] at he
      cases he
      rw [reserveWait_error hr]
      decide
    | ok r => rw [hr] at he; cases he

/-- The continuation of a job goes to the jobs. -/
theorem safe_submit {s : HostJobs.State T} (hs : s.Fresh) (continuation : T)
    (handle : Option Nat) :
    Safe (lift (s.submit continuation handle)) fun s' => s'.held = s.held + 1 ∧ s'.Fresh := by
  refine safe_lift (fun s' hs' => HostJobs.State.held_submit hs hs') fun e he => ?_
  unfold HostJobs.State.submit at he
  split at he
  · cases he
    decide
  · split at he
    · cases he
      decide
    · cases he

/-- The continuation of a completed job comes back. -/
theorem safe_completed {s : HostJobs.State T} (hs : s.Fresh) (finished : Option Nat) :
    Safe (lift (s.completed finished)) fun r =>
      ∀ pending s', r = some (pending, s') → s.held = s'.held + 1 ∧ s'.Fresh := by
  refine safe_lift (fun r hr pending s' heq => ?_) fun e he => ?_
  · rw [heq] at hr
    exact HostJobs.State.held_completed hs hr
  · unfold HostJobs.State.completed at he
    split at he
    · cases he
    · split at he
      · cases he
      · split at he
        · cases he
          decide
        · cases he

/-- A resource that cannot be put back is no miscount. -/
theorem restore_error {s : Network.State T} {handle : Nat} {resource : Network.Resource}
    {e : KernelError} (h : s.restore handle resource = .error e) : ¬Miscount e := by
  unfold Network.State.restore at h
  split at h
  · cases h
    decide
  · split at h
    · cases h
      decide
    · cases h

theorem safe_restore (s : Network.State T) (handle : Nat) (resource : Network.Resource) :
    Safe (lift (s.restore handle resource)) fun s' => s'.held = s.held :=
  safe_lift (fun _ hs' => Network.State.held_restore hs') fun _ => restore_error

theorem safe_insert (s : Network.State T) (resource : Network.Resource) :
    Safe (lift (s.insert resource)) fun r => r.2.held = s.held := by
  refine safe_lift (fun r hr => Network.State.held_insert hr) fun e he => ?_
  unfold Network.State.insert at he
  split at he
  · cases he
    decide
  · cases hr : Network.State.restore { s with next := s.next + 1 } s.next resource with
    | error e' =>
      rw [hr] at he
      cases he
      exact restore_error hr
    | ok restored => rw [hr] at he; cases he

theorem safe_take (s : Network.State T) (handle : Nat) :
    Safe (lift (s.take handle)) fun r => r.2.held = s.held := by
  refine safe_lift (fun r hr => Network.State.held_take hr) fun e he => ?_
  unfold Network.State.take at he
  split at he
  · cases he
    decide
  · cases he

/-- The continuation of a request goes to the network. -/
theorem safe_park (s : Network.State T) (order : Nat) (request : Network.Request T) :
    Safe (lift (s.park order request)) fun s' => s'.held = s.held + 1 := by
  refine safe_lift (fun s' hs' => Network.State.held_park hs') fun e he => ?_
  unfold Network.State.park at he
  split at he
  · cases he
    decide
  · split at he
    · cases he
      decide
    · split at he
      · cases he
        decide
      · cases he

/-- The continuation of a request comes back. -/
theorem safe_takePending (s : Network.State T) (order : Nat) :
    Safe (lift (s.takePending order)) fun r => s.held = r.2.held + 1 := by
  refine safe_lift (fun r hr => Network.State.held_takePending hr) fun e he => ?_
  unfold Network.State.takePending at he
  split at he
  · cases he
    decide
  · cases he

end Queues

/-! ## 3. Requests -/

namespace Machine

variable {m m' : Machine T} {k n : Nat}

/-- The place of the driver does not matter. -/
theorem Holds.at (h : m.Holds k) (phase : Phase T) : { m with phase }.Holds k :=
  ⟨h.count, h.limit, h.quiet, h.fresh⟩

/-- **A change of the scheduler**, with what it takes and what it gives. -/
theorem Holds.withScheduler (h : m.Holds k) {s : Scheduler.State T}
    (hcount : s.live + m.scheduler.held + k = m.scheduler.live + s.held + n)
    (hlimit : s.live ≤ arenaLimit) : { m with scheduler := s }.Holds n := by
  have hold := h.count
  refine ⟨?_, hlimit, h.quiet, h.fresh⟩
  simp only [held] at hold ⊢
  omega

theorem Holds.withChannels (h : m.Holds k) {s : Channels.State T T} (hs : s.Quiet)
    (hcount : s.waiting + n = m.channels.waiting + k) : { m with channels := s }.Holds n := by
  have hold := h.count
  refine ⟨?_, h.limit, hs, h.fresh⟩
  simp only [held] at hold ⊢
  omega

theorem Holds.withJobs (h : m.Holds k) {s : HostJobs.State T} (hs : s.Fresh)
    (hcount : s.held + n = m.jobs.held + k) : { m with jobs := s }.Holds n := by
  have hold := h.count
  refine ⟨?_, h.limit, h.quiet, hs⟩
  simp only [held] at hold ⊢
  omega

theorem Holds.withNetwork (h : m.Holds k) {s : Network.State T}
    (hcount : s.held + n = m.network.held + k) : { m with network := s }.Holds n := by
  have hold := h.count
  refine ⟨?_, h.limit, h.quiet, h.fresh⟩
  simp only [held] at hold ⊢
  omega

theorem Holds.sameNetwork (h : m.Holds k) {s : Network.State T} (hs : s.held = m.network.held) :
    { m with network := s }.Holds k :=
  h.withNetwork (by rw [hs])

/-- What the driver knows at a place beyond the count. -/
def Known (m : Machine T) : Prop :=
  match m.phase with
  | .done .Finished => m.scheduler.live = 0
  | .done .Deadlocked =>
    0 < m.scheduler.live ∧ m.scheduler.held = 0 ∧ m.jobs.held = 0 ∧ m.network.held = 0
  | .waiting _ | .network _ _ | .jobs (some _) => 0 < m.scheduler.live
  | _ => True

/-- **The invariant**: the queues hold every task but those in flight. -/
structure Balanced (m : Machine T) : Prop where
  holds : m.Holds m.phase.inFlight
  known : m.Known

theorem Holds.proceed (h : m.Holds 1) (w : World T) : (m.proceed w).Balanced :=
  ⟨h.at _, trivial⟩

theorem Holds.yield (h : m.Holds 0) : m.yield.Balanced := ⟨h.at _, trivial⟩

/-- A request is parked with its continuation. -/
theorem Holds.parkNetwork (h : m.Holds (k + 1)) (request : Network.Request T) :
    Safe (m.parkNetwork request) fun m' =>
      m'.Holds k ∧ m'.scheduler.live = m.scheduler.live := by
  refine (safe_reserveWait m.scheduler).bind ?_
  rintro ⟨order, scheduler⟩ ⟨hheld, hlive⟩
  simp only at hheld hlive
  refine (safe_park m.network order request).bind fun network hnetwork => safe_pure ?_
  have hlimit := h.limit
  have hscheduler := h.withScheduler (s := scheduler) (n := k + 1) (by omega) (by omega)
  exact ⟨hscheduler.withNetwork (by simp only; omega), hlive⟩

theorem safe_checkResource (operation : Network.Operation) (resource : Network.Resource) :
    Safe (checkResource operation resource) fun _ => True := by
  unfold checkResource
  split
  · exact safe_pure trivial
  · exact safe_error (by decide)
  · exact safe_pure trivial
  · exact safe_error (by decide)

theorem safe_acceptSocket (w : World T) (s : Network.State T) (operation : Network.Operation) :
    Safe (acceptSocket w s operation) fun s' => s'.held = s.held := by
  unfold acceptSocket
  split
  · exact (safe_insert s .Socket).bind fun r hr => safe_pure hr
  · exact safe_pure rfl

/-- The resource of a request is put back before its answer. -/
theorem Holds.restored (h : m.Holds (k + 1)) (w : World T) (operation : Network.Operation)
    (request : Network.Request T) :
    Safe (do
      let network ← acceptSocket w m.network operation
      match request.handle with
      | none => .error (.kernel (.new "native network response lost its handle"))
      | some handle =>
        let network ← lift (network.restore handle request.resource)
        return (true, { m with network })) fun r =>
      r.2.Holds (if r.1 then k + 1 else k) ∧ r.2.scheduler.live = m.scheduler.live := by
  refine (safe_acceptSocket w m.network operation).bind fun network hnetwork => ?_
  cases request.handle with
  | none => exact safe_error (by decide)
  | some handle =>
    refine (safe_restore network handle request.resource).bind fun network' hnetwork' => ?_
    exact safe_pure ⟨h.sameNetwork (hnetwork'.trans hnetwork), rfl⟩

/-- A request in flight is answered, or parked. -/
theorem Holds.advanceNetwork (h : m.Holds (k + 1)) (w : World T) (request : Network.Request T) :
    Safe (advanceNetwork w m request) fun r =>
      r.2.Holds (if r.1 then k + 1 else k) ∧ r.2.scheduler.live = m.scheduler.live := by
  unfold Machine.advanceNetwork
  refine (safe_checkResource _ _).bind fun _ _ => ?_
  split
  · exact (h.parkNetwork _).bind fun m' hm' => safe_pure hm'
  · split
    · split
      · refine (safe_insert m.network request.resource).bind ?_
        rintro ⟨handle, network⟩ hnetwork
        exact safe_pure ⟨h.sameNetwork hnetwork, rfl⟩
      · exact safe_pure ⟨h, rfl⟩
    · exact h.restored w _ request

theorem Holds.answered {r : Bool × Machine T} (h : r.2.Holds (if r.1 then 1 else 0)) (w : World T) :
    (answered w r).Balanced := by
  obtain ⟨isAnswered, m⟩ := r
  cases isAnswered with
  | true => exact Holds.proceed h w
  | false => exact Holds.yield h

theorem Holds.take (h : m.Holds k) (handle : Nat) :
    Safe (lift (m.network.take handle)) fun r => { m with network := r.2 }.Holds k :=
  (safe_take m.network handle).imp fun _ hr => h.sameNetwork hr

theorem Holds.takeAndPark (h : m.Holds 1) (handle : Nat) (continuation : T)
    (operation : Network.Operation) :
    Safe (m.takeAndPark handle continuation operation) Balanced := by
  refine (h.take handle).bind ?_
  rintro ⟨resource, network⟩ hnetwork
  exact (Holds.parkNetwork hnetwork _).bind fun m' hm' => safe_pure hm'.1.yield

/-- A request is tried before it is parked. -/
theorem Holds.takeAndAdvance (h : m.Holds 1) (w : World T) (handle : Nat) (continuation : T)
    (operation : Network.Operation) :
    Safe (takeAndAdvance w m handle continuation operation) Balanced := by
  refine (h.take handle).bind ?_
  rintro ⟨resource, network⟩ hnetwork
  exact (Holds.advanceNetwork hnetwork w _).bind fun r hr => safe_pure (Holds.answered hr.1 w)

/-- A resource is opened for the task in hand. -/
theorem Holds.openResource (h : m.Holds 1) (w : World T) (resource : Network.Resource) :
    Safe (openResource w m resource) Balanced := by
  unfold Machine.openResource
  split
  · refine (safe_insert m.network resource).bind ?_
    rintro ⟨handle, network⟩ hnetwork
    exact safe_pure ((h.sameNetwork hnetwork).proceed w)
  · exact safe_pure (h.proceed w)

theorem Holds.closeResource (h : m.Holds 1) (w : World T) (handle : Nat) :
    Safe (closeResource w m handle) Balanced := by
  refine (h.take handle).bind ?_
  rintro ⟨resource, network⟩ hnetwork
  exact safe_pure (Holds.proceed hnetwork w)

theorem Holds.pollNetwork (h : m.Holds 1) (w : World T) (handle : Nat) :
    Safe (pollNetwork w m handle) Balanced := by
  refine (safe_take m.network handle).bind ?_
  rintro ⟨resource, network⟩ hnetwork
  refine (safe_restore network handle resource).bind fun network' hnetwork' => ?_
  refine (safe_checkResource _ _).bind fun _ _ => ?_
  exact safe_pure ((h.sameNetwork (hnetwork'.trans hnetwork)).proceed w)

theorem Holds.connect (h : m.Holds 1) (w : World T) (continuation : T) :
    Safe (connect w m continuation) Balanced := by
  unfold Machine.connect
  split
  · exact (h.parkNetwork _).bind fun m' hm' => safe_pure hm'.1.yield
  · exact h.openResource w .Socket

theorem Holds.submitJob (h : m.Holds 1) (continuation : T) (handle : Option Nat) :
    Safe (m.submitJob continuation handle) Balanced := by
  refine (safe_submit h.fresh continuation handle).bind ?_
  rintro jobs ⟨hjobs, hfresh⟩
  exact safe_pure (h.withJobs hfresh (n := 0) (by omega)).yield

/-- The task in hand waits for a timer. -/
theorem Holds.sleepRequest (h : m.Holds 1) (w : World T) (milliseconds : Nat) :
    Safe (sleepRequest w m milliseconds) Balanced := by
  unfold Machine.sleepRequest
  split
  · exact safe_error (by decide)
  · refine (safe_sleep m.scheduler _ _).bind ?_
    rintro scheduler ⟨hheld, hlive⟩
    have hlimit := h.limit
    exact safe_pure (h.withScheduler (n := 0) (by omega) (by omega)).yield

theorem Holds.spawnRequest (h : m.Holds 1) (w : World T) :
    Safe (spawnRequest w m) Balanced := by
  refine (safe_spawn m.scheduler w.spawned).bind ?_
  rintro scheduler ⟨hheld, hlive, hlimit⟩
  exact safe_pure ((h.withScheduler (n := 1) (by omega) (by omega)).proceed w)

/-- A channel that is refused is no miscount. -/
theorem open_error {s s' : Channels.State T T} {room : Nat} {e : KernelError}
    (h : s.open room = (.error e, s')) : ¬Miscount e := by
  have hopenAt : ∀ (s : Channels.State T T) (index : Nat),
      s.openAt index room = (.error e, s') → ¬Miscount e := by
    intro s index h
    unfold Channels.State.openAt at h
    split at h
    · cases h
      decide
    · split at h
      · cases h
        decide
      · cases h
  unfold Channels.State.open at h
  split at h
  · exact hopenAt _ _ h
  · split at h
    · cases h
      decide
    · exact hopenAt _ _ h

theorem send_error {s s' : Channels.State T T} {channel : Channels.Handle}
    {payload continuation : T} {e : KernelError}
    (h : s.send channel payload continuation = (.error e, s')) : ¬Miscount e := by
  unfold Channels.State.send at h
  split at h
  · cases h
  · simp only at h
    split_ifs at h
    · cases h
    · cases h
      decide
    · cases h
      decide
    · split at h
      · cases h
      · cases h
        decide
    · cases h
    · cases h

theorem recv_error {s s' : Channels.State T T} {channel : Channels.Handle} {continuation : T}
    {e : KernelError} (h : s.recv channel continuation = (.error e, s')) : ¬Miscount e := by
  unfold Channels.State.recv at h
  split at h
  · cases h
  · simp only at h
    split at h
    · cases h
      decide
    · split at h
      · split at h
        · cases h
        · cases h
          decide
        · cases h
      · split at h
        · split at h
          · cases h
          · cases h
            decide
        · split at h
          · cases h
          · cases h

/-- The task in hand gets its channel. -/
theorem Holds.openChannel (h : m.Holds 1) (w : World T) (room : Nat) :
    Safe (openChannel w m room) Balanced := by
  unfold Machine.openChannel
  split
  · rename_i e channels hopen
    exact open_error hopen
  · rename_i handle channels hopen
    obtain ⟨hquiet, hwaiting⟩ := h.quiet.open hopen
    exact safe_ok ((h.withChannels hquiet (by rw [hwaiting])).proceed w)

/-- The tasks that a transition wakes are in flight, and its caller unless it is parked. -/
theorem Holds.transition (h : m.Holds 1)
    {r : Except KernelError (Channels.Transition T T) × Channels.State T T}
    (hok : ∀ t s, r = (.ok t, s) → Channels.Accounted m.channels t s)
    (herror : ∀ e s, r = (.error e, s) → ¬Miscount e) : Safe (m.transition r) Balanced := by
  obtain ⟨result, channels⟩ := r
  cases result with
  | error e => exact herror e channels rfl
  | ok t =>
    obtain ⟨hquiet, hcount⟩ := hok t channels rfl
    obtain ⟨outcome, wakes⟩ := t
    refine safe_ok ⟨?_, trivial⟩
    cases outcome with
    | Ready answer =>
      simp only [Channels.Transition.parks] at hcount
      exact (h.withChannels hquiet (n := wakes.length + 1) (by omega)).at _
    | Parked =>
      simp only [Channels.Transition.parks] at hcount
      exact (h.withChannels hquiet (n := wakes.length) (by omega)).at _

/-- **A request keeps the invariant.** -/
theorem Holds.ioRequest (h : m.Holds 1) (w : World T) (request : Foreign T) (continuation : T) :
    Safe (ioRequest w m request continuation) Balanced := by
  cases request with
  | Print | Write | PrintErr | Now | GetEnv | FileClose => exact safe_ok (h.proceed w)
  | Spawn action => exact h.spawnRequest w
  | Sleep milliseconds => exact h.sleepRequest w milliseconds
  | ChanNew room => exact h.openChannel w room
  | ChanSend channel payload =>
    exact h.transition (fun _ _ hsend => h.quiet.send hsend) fun _ _ => send_error
  | ChanRecv channel =>
    exact h.transition (fun _ _ hrecv => h.quiet.recv hrecv) fun _ _ => recv_error
  | ChanClose channel =>
    refine h.transition (r := Prod.map .ok id (m.channels.close channel)) (fun t s hclose => ?_)
      fun e s hclose => ?_
    · cases hclose
      exact h.quiet.close rfl
    · cases hclose
  | FileOpen =>
    unfold Machine.ioRequest
    simp only
    split
    · exact h.submitJob continuation none
    · exact safe_ok (h.proceed w)
  | FileRead file | FileReadBytes file | FileWrite file =>
    exact h.submitJob continuation (some file)
  | TcpListen => exact h.openResource w .Listener
  | UdpBind => exact h.openResource w .Socket
  | TcpConnect => exact h.connect w continuation
  | TcpAccept listener => exact h.takeAndPark listener continuation .Accept
  | TcpRecv socket max => exact h.takeAndPark socket continuation (.Recv max)
  | UdpRecvFrom socket max => exact h.takeAndPark socket continuation (.RecvFrom max)
  | TcpSend socket data => exact h.takeAndAdvance w socket continuation (.Send data 0)
  | UdpSendTo socket host port data =>
    exact h.takeAndAdvance w socket continuation (.SendTo host port data)
  | UdpPoll socket => exact h.pollNetwork w socket
  | SocketClose handle | ListenerClose handle => exact h.closeResource w handle

/-! ## 4. Steps and runs -/

/-- The next task is taken from the queue. -/
theorem Holds.nextTask (h : m.Holds 0) : m.nextTask.Balanced := by
  unfold Machine.nextTask
  have hlimit := h.limit
  split
  · rename_i current scheduler hnext
    obtain ⟨hheld, hlive⟩ := Scheduler.State.held_next hnext
    exact ⟨(h.withScheduler (s := scheduler) (n := 1) (by omega) (by omega)).at _, trivial⟩
  · split
    · rename_i hfinished
      exact ⟨h.at _, by simpa [Known, Scheduler.State.finished] using hfinished⟩
    · rename_i hfinished
      refine ⟨h.at _, ?_⟩
      simpa [Known, Scheduler.State.finished, Nat.pos_iff_ne_zero] using hfinished

/-- With no task in hand, the next one is looked for. -/
theorem Holds.turn (h : m.Holds 0) : m.turn.Balanced := by
  unfold Machine.turn
  have hturns : ({ m with turns := (m.turns + 1) % 256 } : Machine T).Holds 0 :=
    ⟨h.count, h.limit, h.quiet, h.fresh⟩
  simp only
  split
  · exact ⟨hturns.at _, trivial⟩
  · exact hturns.nextTask

/-- A completed job gives its task to the driver. -/
theorem Holds.resumeHostJob {polled : Option (List Nat)} (h : m.Balanced)
    (hphase : m.phase = .jobs polled) (w : World T) :
    Safe (resumeHostJob w m polled) Balanced := by
  obtain ⟨hholds, hknown⟩ := h
  rw [hphase] at hholds
  refine (safe_completed hholds.fresh w.finished).bind fun r hr => ?_
  have hlimit := hholds.limit
  have hcount := hholds.count
  simp only [Machine.held, Phase.inFlight] at hcount
  match r, hr with
  | some (pending, jobs), hr =>
    obtain ⟨hjobs, hfresh⟩ := hr pending jobs rfl
    have hflight := hholds.withJobs hfresh (n := 1) (by simp only [Phase.inFlight]; omega)
    refine (safe_resume (by omega) w.allocated).bind ?_
    rintro scheduler ⟨hheld, hlive⟩
    have hagain := hflight.withScheduler (s := scheduler) (n := 0) (by simp only; omega) (by omega)
    refine safe_pure ⟨?_, ?_⟩
    · simp only [hphase]
      exact hagain.at (.jobs polled)
    · cases polled with
      | none => simp only [Known, hphase]
      | some orders =>
        simp only [Known, hphase] at hknown ⊢
        omega
  | none, _ =>
    cases polled with
    | none => exact safe_pure hholds.nextTask
    | some orders =>
      simp only [Known, hphase] at hknown
      exact safe_pure ⟨hholds.at _, hknown⟩

/-- **The task in hand is run to its next request.** -/
theorem Holds.runTask (h : m.Holds 1) (w : World T) : Safe (runTask w m) Balanced := by
  have hlimit := h.limit
  have hcount := h.count
  unfold Machine.runTask
  split
  · refine (safe_complete (by omega)).bind ?_
    rintro scheduler ⟨hheld, hlive⟩
    exact safe_pure (h.withScheduler (n := 0) (by omega) (by omega)).yield
  · exact safe_ok ⟨h.at _, trivial⟩
  · exact h.ioRequest w _ _

/-- The tasks that a channel woke are resumed one after another. -/
theorem Holds.wakeNext {wakes : List (Wake T T)} {outcome : Outcome T}
    (h : m.Holds (Phase.waking wakes outcome).inFlight) (w : World T) :
    Safe (wakeNext w m outcome wakes) Balanced := by
  have hlimit := h.limit
  have hcount := h.count
  cases wakes with
  | nil =>
    cases outcome with
    | Ready answer => exact safe_ok (Holds.proceed h w)
    | Parked => exact safe_ok (Holds.yield h)
  | cons wake wakes =>
    have hsplit : (Phase.waking (wake :: wakes) outcome).inFlight =
        (Phase.waking wakes outcome).inFlight + 1 := by
      cases outcome <;> rfl
    rw [hsplit] at h hcount
    simp only [Machine.held] at hcount
    refine (safe_resume (by omega) w.allocated).bind ?_
    rintro scheduler ⟨hheld, hlive⟩
    have hnext := h.withScheduler (s := scheduler) (n := (Phase.waking wakes outcome).inFlight)
      (by omega) (by omega)
    exact safe_pure ⟨hnext.at _, trivial⟩

theorem Holds.poll (h : m.Holds 0) (hlive : 0 < m.scheduler.live) (w : World T)
    (polled : Option (List Nat)) : (poll w m polled).Balanced := by
  cases polled with
  | some ready => exact ⟨h.at _, hlive⟩
  | none => exact ⟨h.at _, hlive⟩

/-- The driver waits only while a task is live. -/
theorem Holds.wait (h : m.Holds 0) (hlive : 0 < m.scheduler.live) (w : World T) :
    (wait w m).Balanced := by
  unfold Machine.wait
  split
  · exact ⟨h.at _, trivial⟩
  · rename_i hready
    split
    · exact ⟨h.at _, hlive⟩
    · rename_i hnetwork
      split
      · exact ⟨h.at _, hlive⟩
      · rename_i hjobs
        split
        · exact ⟨h.at _, hlive⟩
        · -- nothing is ready, timed, with a worker or with the network
          rename_i htimers
          refine ⟨h.at _, hlive, ?_, HostJobs.State.held_eq_zero (by simpa using hjobs),
            Network.State.held_eq_zero (by simpa using hnetwork)⟩
          have hnoReady : m.scheduler.ready = [] := by
            simpa [Scheduler.State.hasReady] using hready
          have hnoTimers : m.scheduler.timers = [] := by
            simpa [Scheduler.State.nextDeadline] using htimers
          simp [Scheduler.State.held, hnoReady, hnoTimers]

theorem Holds.wakeBefore (h : m.Holds k) (now order : Nat) :
    { m with scheduler := m.scheduler.wakeBefore now order }.Holds k := by
  have hheld := m.scheduler.held_wakeBefore now order
  exact h.withScheduler (by rw [hheld]; rfl) h.limit

/-- The requests that are ready are tried again. -/
theorem Holds.resumeNetwork {orders : List Nat} (h : m.Holds 0) (hlive : 0 < m.scheduler.live)
    (w : World T) (now : Nat) : Safe (resumeNetwork w m now orders) Balanced := by
  cases orders with
  | nil => exact safe_ok ((h.wakeBefore now u64Max).wait hlive w)
  | cons order orders =>
    refine (safe_takePending m.network order).bind ?_
    rintro ⟨request, network⟩ hnetwork
    simp only at hnetwork
    have hflight := (h.wakeBefore now order).withNetwork (s := network) (n := 1)
      (by simp only; omega)
    refine (hflight.advanceNetwork w request).bind ?_
    rintro ⟨isAnswered, m'⟩ ⟨hholds, hsame⟩
    simp only at hholds hsame
    have hlive' : 0 < m'.scheduler.live := hsame ▸ hlive
    cases isAnswered with
    | false => exact safe_pure ⟨hholds.at _, hlive'⟩
    | true =>
      have hlimit := hholds.limit
      have hcount := hholds.count
      simp only [Machine.held, if_true] at hcount
      refine (safe_resume (by omega) w.allocated).bind ?_
      rintro scheduler ⟨hheld, hresumed⟩
      have hnext := hholds.withScheduler (s := scheduler) (n := 0)
        (by simp only [if_true]; omega) (by omega)
      refine safe_pure ⟨hnext.at _, ?_⟩
      change 0 < scheduler.live
      omega

/-- **Every step keeps the invariant**, and fails for no wrong count. -/
theorem Balanced.step (h : m.Balanced) (w : World T) : Safe (step w m) Balanced := by
  have hholds := h.holds
  have hknown := h.known
  unfold Machine.step
  unfold Known at hknown
  split
  · trivial
  · split <;> rename_i hphase <;> rw [hphase] at hholds hknown
    · exact safe_ok (Holds.turn hholds)
    · exact Holds.resumeHostJob h hphase w
    · exact Holds.runTask hholds w
    · exact Holds.wakeNext hholds w
    · exact safe_ok (Holds.poll hholds hknown w _)
    · exact Holds.resumeNetwork hholds hknown w _
    · exact safe_ok h

/-- The first task is the only one. -/
theorem balanced_start (entry : T) : Safe (start entry) Balanced := by
  refine (safe_spawn Scheduler.State.default entry).bind ?_
  rintro scheduler ⟨hheld, hlive, hlimit⟩
  have hzero : (Scheduler.State.default : Scheduler.State T).held = 0 := rfl
  have hnone : (Scheduler.State.default : Scheduler.State T).live = 0 := rfl
  refine safe_pure ⟨⟨?_, ?_, Channels.State.quiet_default, HostJobs.State.fresh_default⟩, trivial⟩
  · have hchannels : (Channels.State.default : Channels.State T T).waiting = 0 := rfl
    have hjobs : (HostJobs.State.default : HostJobs.State T).held = 0 := rfl
    have hnetwork : (Network.State.default : Network.State T).held = 0 := rfl
    simp only [Machine.held, Phase.inFlight, hchannels, hjobs, hnetwork]
    omega
  · simp only
    omega

/-- **Every state of a run is balanced.** -/
theorem Reached.balanced {entry : T} (h : Reached entry m) : m.Balanced := by
  induction h with
  | start h =>
    have hstart := balanced_start entry
    rwa [h] at hstart
  | step w _ h ih =>
    have hstep := ih.step w
    rwa [h] at hstep

/-! ## 5. What follows for a run -/

/-- A running task can sleep: only the numbers of the waits can run out. -/
theorem Holds.sleep_error (h : m.Holds 1) {deadline : Nat} {action : T} {e : KernelError}
    (he : m.scheduler.sleep deadline action = .error e) :
    e = .new "native wait identity exhausted" := by
  have hlimit := h.limit
  have hcount := h.count
  simp only [Machine.held, Scheduler.State.held] at hcount
  unfold Scheduler.State.sleep at he
  rw [if_neg (by omega)] at he
  cases hr : m.scheduler.reserveWait with
  | error e' =>
    rw [hr] at he
    cases he
    exact reserveWait_error hr
  | ok r => rw [hr] at he; cases he

/-- **Task conservation.**  In every state of every run the live tasks are the ready actions, the
armed timers, the parties that wait in channels, the pending host jobs, the pending network
requests and the tasks in flight, which is one while a task runs.  No step fails for a wrong
count and a running task never fails to sleep for one.  A run that ends with code 0 has no task
left unless a task halted it with that code, and a reported deadlock has every live task waiting
in a channel. -/
theorem task_conservation {entry : T} (h : Reached entry m) :
    m.scheduler.live = m.scheduler.ready.length + m.scheduler.timers.length +
      m.channels.waiting + m.jobs.pending.keys.length + m.network.pending.keys.length +
      m.phase.inFlight ∧
    (∀ w e, step w m = .error (.kernel e) → ¬Miscount e) ∧
    (∀ current, m.phase = .running current → m.phase.inFlight = 1 ∧
      ∀ deadline action e, m.scheduler.sleep deadline action = .error e →
        e = .new "native wait identity exhausted") ∧
    (∀ exit, m.phase = .done exit → exit.code = 0 → exit = .Halted 0 ∨
      m.scheduler.ready = [] ∧ m.scheduler.timers = [] ∧ m.channels.waiting = 0 ∧
        m.jobs.pending.keys = [] ∧ m.network.pending.keys = []) ∧
    (m.phase = .done .Deadlocked →
      0 < m.scheduler.live ∧ m.scheduler.live = m.channels.waiting) := by
  obtain ⟨hholds, hknown⟩ := h.balanced
  have hcount := hholds.count
  simp only [Machine.held, Scheduler.State.held, HostJobs.State.held, Network.State.held] at hcount
  refine ⟨hcount, fun w e he => ?_, fun current hphase => ?_, fun exit hphase hcode => ?_,
    fun hphase => ?_⟩
  · have hstep := h.balanced.step w
    rwa [he] at hstep
  · rw [hphase] at hholds ⊢
    exact ⟨rfl, fun deadline action e => Holds.sleep_error hholds⟩
  · cases exit with
    | Finished =>
      right
      rw [Known, hphase] at hknown
      rw [hphase] at hcount
      have hempty : m.scheduler.ready.length = 0 ∧ m.scheduler.timers.length = 0 ∧
          m.channels.waiting = 0 ∧ m.jobs.pending.keys.length = 0 ∧
          m.network.pending.keys.length = 0 := by
        simp only at hknown
        omega
      simpa only [List.length_eq_zero_iff] using hempty
    | Halted code =>
      left
      rw [Exit.code] at hcode
      rw [hcode]
    | Deadlocked => cases hcode
  · rw [Known, hphase] at hknown
    obtain ⟨hlive, hscheduler, hjobs, hnetwork⟩ := hknown
    rw [Scheduler.State.held] at hscheduler
    rw [HostJobs.State.held] at hjobs
    rw [Network.State.held] at hnetwork
    rw [hphase] at hcount
    simp only [Phase.inFlight] at hcount
    exact ⟨hlive, by omega⟩

/-- A step in which everything outside goes through. -/
def plainWorld (forced : Value Nat) : World Nat where
  proceeds := true
  forced := forced
  allocated := 1
  spawned := 2
  now := 0
  finished := none
  ready _ := false
  succeeds := true
  connecting := false
  waits := none

/-- The first task spawns five and waits in a channel, and all but one of these go on to wait for
the clock, a worker and the network. -/
def busyRun : List (World Nat) :=
  [plainWorld .Emit] ++ List.replicate 5 (plainWorld (.Request (.Spawn 2) 0)) ++
    [plainWorld (.Request (.ChanNew 1) 0), plainWorld (.Request (.ChanRecv ⟨0, 1⟩) 0),
      plainWorld .Emit, plainWorld .Emit, plainWorld (.Request (.Sleep 5) 0), plainWorld .Emit,
      plainWorld (.Request .FileOpen 0), plainWorld .Emit,
      { plainWorld (.Request .TcpConnect 0) with connecting := true }, plainWorld .Emit]

/-- A run reaches its end. -/
theorem Reached.steps {entry : T} {m m' : Machine T} {worlds : List (World T)}
    (hm : Reached entry m) (h : worlds.foldlM (fun m w => Machine.step w m) m = .ok m') :
    Reached entry m' := by
  induction worlds generalizing m with
  | nil =>
    cases h
    exact hm
  | cons w worlds ih =>
    rw [List.foldlM_cons] at h
    cases hstep : Machine.step w m with
    | error e => simp [hstep, bind, Except.bind] at h
    | ok m₁ =>
      rw [hstep] at h
      exact ih (hm.step w hstep) h

/-- Six tasks live: one runs, and one waits at each of the five places. -/
theorem task_conservation_busy : ∃ m : Machine Nat, Reached 0 m ∧ m.phase = .running 2 ∧
    m.scheduler.ready.length = 1 ∧ m.scheduler.timers.length = 1 ∧ m.channels.waiting = 1 ∧
    m.jobs.pending.keys.length = 1 ∧ m.network.pending.keys.length = 1 ∧ m.scheduler.live = 6 := by
  obtain ⟨m₀, hstart⟩ : ∃ m₀ : Machine Nat, start 0 = .ok m₀ := ⟨_, rfl⟩
  -- what is said of the end is computed at once
  have hplaces : (start 0 >>= busyRun.foldlM fun m w => step w m).map (fun m =>
      (m.phase, m.scheduler.ready.length, m.scheduler.timers.length, m.channels.waiting,
        m.jobs.pending.keys.length, m.network.pending.keys.length)) =
      .ok (.running 2, 1, 1, 1, 1, 1) := rfl
  rw [hstart] at hplaces
  change (busyRun.foldlM (fun m w => step w m) m₀).map _ = _ at hplaces
  cases hrun : busyRun.foldlM (fun m w => step w m) m₀ with
  | error e =>
    rw [hrun] at hplaces
    cases hplaces
  | ok m =>
    have hreached : Reached 0 m := (Reached.start hstart).steps hrun
    have hlive := (task_conservation hreached).1
    rw [hrun] at hplaces
    simp only [Except.map, Except.ok.injEq, Prod.mk.injEq] at hplaces
    obtain ⟨hphase, hready, htimers, hwaiting, hjobs, hnetwork⟩ := hplaces
    rw [hready, htimers, hwaiting, hjobs, hnetwork, hphase] at hlive
    exact ⟨m, hreached, hphase, hready, htimers, hwaiting, hjobs, hnetwork, hlive⟩

/-- A task that halts with code 0 ends the run with that code and leaves the task it spawned. -/
theorem halt_leaves_task : ∃ (m : Machine Nat) (exit : Exit), Reached 0 m ∧
    m.phase = .done exit ∧ exit.code = 0 ∧ m.scheduler.ready = [2] :=
  ⟨_, .Halted 0,
    .step (plainWorld (.Halt 0))
      (.step (plainWorld (.Request (.Spawn 0) 0))
        (.step (plainWorld .Emit) (.start (rfl : start 0 = _)) rfl) rfl) rfl,
    rfl, rfl, rfl⟩

end Machine

end TeamyBend.Runtime.Driver
