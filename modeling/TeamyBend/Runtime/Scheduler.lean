/-
# Where the tasks of a run are

The queues of the native driver: the scheduler with its ready actions and timers
(`scheduler.rs`), the host jobs that workers run (`host_jobs.rs`) and the network requests that
wait for a descriptor (`network.rs`).  The channels have a module of their own.

A `BTreeMap` is an association list without repeated keys.  Thunks are any type: these modules
never look into one.  What the host does is left out: workers and their budget, open files and
sockets, and the bytes that move.
-/
import TeamyBend.Runtime.Channels
import Mathlib.Data.List.AList
import Mathlib.Data.List.Sort

namespace TeamyBend.Runtime

/-- `u64::MAX`. -/
def u64Max : Nat := 18446744073709551615

variable {T : Type}

/-! ## 1. The scheduler -/

namespace Scheduler

/-- `struct Timer`. -/
structure Timer (T : Type) where
  order : Nat
  deadline : Nat
  action : T
  deriving Repr, DecidableEq

/-- `struct State`. -/
structure State (T : Type) where
  ready : List T
  timers : List (Timer T)
  live : Nat
  nextWait : Nat
  deriving Repr, DecidableEq

/-- `State::default`. -/
def State.default : State T := ⟨[], [], 0, 0⟩

namespace State

/-- `State::spawn`. -/
def spawn (s : State T) (action : T) : Except KernelError (State T) :=
  if arenaLimit ≤ s.live then .error (.new "IO pending task budget exhausted")
  else .ok { s with live := s.live + 1, ready := s.ready ++ [action] }

/-- `State::next`. -/
def next (s : State T) : Option (T × State T) :=
  match s.ready with
  | [] => none
  | action :: ready => some (action, { s with ready })

/-- `State::resume`. -/
def resume (s : State T) (action : T) : Except KernelError (State T) :=
  if s.live ≤ s.ready.length + s.timers.length then
    .error (.new "invalid native scheduler wake count")
  else .ok { s with ready := s.ready ++ [action] }

/-- `State::complete`. -/
def complete (s : State T) : Except KernelError (State T) :=
  match s.live with
  | 0 => .error (.new "invalid native scheduler task count")
  | live + 1 => .ok { s with live }

/-- `State::finished`. -/
def finished (s : State T) : Bool := s.live == 0

/-- `State::reserve_wait`. -/
def reserveWait (s : State T) : Except KernelError (Nat × State T) :=
  if s.nextWait = u64Max then .error (.new "native wait identity exhausted")
  else .ok (s.nextWait, { s with nextWait := s.nextWait + 1 })

/-- `State::sleep`. -/
def sleep (s : State T) (deadline : Nat) (action : T) : Except KernelError (State T) :=
  if s.live ≤ s.timers.length ∨ arenaLimit ≤ s.ready.length + s.timers.length then
    .error (.new "IO pending task budget exhausted")
  else do
    let (order, s) ← s.reserveWait
    .ok { s with timers := s.timers ++ [⟨order, deadline, action⟩] }

/-- The timers that `wake_before` takes. -/
def isDue (now order : Nat) (timer : Timer T) : Bool :=
  decide (timer.deadline ≤ now) && decide (timer.order < order)

/-- `State::wake_before`. -/
def wakeBefore (s : State T) (now order : Nat) : State T :=
  { s with
    ready := s.ready ++ (s.timers.filter (isDue now order)).map Timer.action
    timers := s.timers.filter fun timer => !isDue now order timer }

/-- `State::wake`. -/
def wake (s : State T) (now : Nat) : State T := s.wakeBefore now u64Max

/-- `State::next_deadline`. -/
def nextDeadline (s : State T) : Option Nat := (s.timers.map Timer.deadline).min?

/-- `State::has_ready`. -/
def hasReady (s : State T) : Bool := !s.ready.isEmpty

/-- How many tasks the scheduler holds. -/
def held (s : State T) : Nat := s.ready.length + s.timers.length

variable {s s' : State T} {action : T}

/-- A spawned action is live and held, and there was room for it. -/
theorem held_spawn (h : s.spawn action = .ok s') :
    s'.held = s.held + 1 ∧ s'.live = s.live + 1 ∧ s.live < arenaLimit := by
  unfold spawn at h
  split at h
  · cases h
  · rename_i hlimit
    cases h
    refine ⟨?_, rfl, by omega⟩
    simp only [held, List.length_append, List.length_singleton]
    omega

/-- An action that is taken from the queue is still live, and held no more. -/
theorem held_next (h : s.next = some (action, s')) : s.held = s'.held + 1 ∧ s'.live = s.live := by
  unfold next at h
  split at h
  · cases h
  · rename_i heq
    cases h
    refine ⟨?_, rfl⟩
    simp only [held, heq, List.length_cons]
    omega

/-- An action that goes back to the queue is held again. -/
theorem held_resume (h : s.resume action = .ok s') : s'.held = s.held + 1 ∧ s'.live = s.live := by
  unfold resume at h
  split at h
  · cases h
  · cases h
    refine ⟨?_, rfl⟩
    simp only [held, List.length_append, List.length_singleton]
    omega

theorem resume_ok (h : s.held < s.live) : ∃ s', s.resume action = .ok s' :=
  ⟨_, if_neg (Nat.not_le.mpr h)⟩

theorem held_complete (h : s.complete = .ok s') : s'.held = s.held ∧ s.live = s'.live + 1 := by
  unfold complete at h
  split at h
  · cases h
  · rename_i heq
    cases h
    exact ⟨rfl, heq⟩

theorem complete_ok (h : 0 < s.live) : ∃ s', s.complete = .ok s' := by
  unfold complete
  split
  · omega
  · exact ⟨_, rfl⟩

theorem held_reserveWait {order : Nat} (h : s.reserveWait = .ok (order, s')) :
    s'.ready = s.ready ∧ s'.timers = s.timers ∧ s'.live = s.live := by
  unfold reserveWait at h
  split at h
  · cases h
  · cases h
    exact ⟨rfl, rfl, rfl⟩

/-- An action that sleeps is held by its timer. -/
theorem held_sleep {deadline : Nat} (h : s.sleep deadline action = .ok s') :
    s'.held = s.held + 1 ∧ s'.live = s.live := by
  unfold sleep at h
  split at h
  · cases h
  · cases hr : s.reserveWait with
    | error e => rw [hr] at h; cases h
    | ok r =>
      rw [hr] at h
      cases h
      obtain ⟨hready, htimers, hlive⟩ := held_reserveWait hr
      refine ⟨?_, hlive⟩
      simp only [held, hready, htimers, List.length_append, List.length_singleton]
      omega

theorem held_wakeBefore (s : State T) (now order : Nat) :
    (s.wakeBefore now order).held = s.held := by
  have hsplit := List.length_eq_length_filter_add (l := s.timers) (isDue now order)
  simp only [held, wakeBefore, List.length_append, List.length_map]
  omega

end State

end Scheduler

/-! ## 2. Host jobs -/

namespace HostJobs

/-- `struct Pending`.  A file handle is a number. -/
structure Pending (T : Type) where
  continuation : T
  handle : Option Nat
  deriving Repr, DecidableEq

/-- `struct State`, with `portal` for whether a job was ever submitted. -/
structure State (T : Type) where
  portal : Bool
  pending : AList fun _ : Nat => Pending T
  next : Nat

/-- `State::default`. -/
def State.default : State T := ⟨false, ∅, 0⟩

namespace State

/-- `State::submit`, when the workers take the job. -/
def submit (s : State T) (continuation : T) (handle : Option Nat) :
    Except KernelError (State T) :=
  if arenaLimit ≤ s.pending.keys.length then
    .error (.new "native pending host job budget exhausted")
  else if s.next = u64Max then .error (.new "native host job identity exhausted")
  else .ok { portal := true, pending := s.pending.insert s.next ⟨continuation, handle⟩
             next := s.next + 1 }

/-- `State::has_pending`. -/
def hasPending (s : State T) : Bool := !s.pending.keys.isEmpty

/-- `State::completed`, when the next answer of the workers is that of the job `finished`. -/
def completed (s : State T) (finished : Option Nat) :
    Except KernelError (Option (Pending T × State T)) :=
  if !s.portal then .ok none
  else
    match finished with
    | none => .ok none
    | some id =>
      match s.pending.lookup id with
      | none => .error (.new "unexpected native host completion")
      | some pending => .ok (some (pending, { s with pending := s.pending.erase id }))

/-- How many tasks wait for a job. -/
def held (s : State T) : Nat := s.pending.keys.length

/-- The numbers of the pending jobs were given out. -/
def Fresh (s : State T) : Prop := ∀ id ∈ s.pending, id < s.next

variable {s s' : State T}

theorem fresh_default : (State.default : State T).Fresh :=
  fun id hid => absurd hid (AList.notMem_empty id)

/-- A job that is submitted holds its continuation. -/
theorem held_submit {continuation : T} {handle : Option Nat} (hs : s.Fresh)
    (h : s.submit continuation handle = .ok s') : s'.held = s.held + 1 ∧ s'.Fresh := by
  unfold submit at h
  split at h
  · cases h
  · split at h
    · cases h
    · cases h
      have hnew : s.next ∉ s.pending.keys := fun hmem =>
        Nat.lt_irrefl s.next (hs s.next (AList.mem_keys.mpr hmem))
      constructor
      · simp only [held, AList.keys_insert, List.length_cons, List.erase_of_not_mem hnew]
      · intro id hid
        rcases (AList.mem_insert s.pending).mp hid with rfl | hold
        · exact Nat.lt_succ_self _
        · exact Nat.lt_succ_of_lt (hs id hold)

/-- A completed job gives its continuation back. -/
theorem held_completed {finished : Option Nat} {pending : Pending T} (hs : s.Fresh)
    (h : s.completed finished = .ok (some (pending, s'))) : s.held = s'.held + 1 ∧ s'.Fresh := by
  unfold completed at h
  split at h
  · cases h
  · split at h
    · cases h
    · rename_i id
      split at h
      · cases h
      · rename_i hlookup
        cases h
        have hmem : id ∈ s.pending.keys := by
          rw [← AList.mem_keys, ← AList.lookup_isSome, hlookup]
          rfl
        have hpos := List.length_pos_of_mem hmem
        constructor
        · simp only [held, AList.keys_erase, List.length_erase_of_mem hmem]
          omega
        · exact fun id hid => hs id (AList.mem_erase.mp hid).2

theorem held_eq_zero (h : s.hasPending = false) : s.held = 0 := by
  simpa [hasPending, held] using h

end State

end HostJobs

/-! ## 3. Network requests -/

namespace Network

/-- `enum Resource`, without the descriptor. -/
inductive Resource where
  | Socket
  | Listener
  deriving Repr, DecidableEq

/-- `enum Operation`.  Of a text only the number of its bytes is read. -/
inductive Operation where
  | Connect
  | Accept
  | Send (data offset : Nat)
  | Recv (max : Nat)
  | SendTo (host port data : Nat)
  | RecvFrom (max : Nat)
  deriving Repr, DecidableEq

/-- `Operation::bytes`. -/
def Operation.bytes : Operation → Nat
  | Connect | Accept => 0
  | Send data _ => data
  | SendTo host _ data => host + data
  | Recv max | RecvFrom max => max

/-- `struct Request`.  A handle is a number. -/
structure Request (T : Type) where
  resource : Resource
  handle : Option Nat
  continuation : T
  operation : Operation
  deriving Repr, DecidableEq

/-- `struct State`. -/
structure State (T : Type) where
  resources : AList fun _ : Nat => Resource
  pending : AList fun _ : Nat => Request T
  next : Nat
  retainedBytes : Nat

/-- `State::default`. -/
def State.default : State T := ⟨∅, ∅, 0, 0⟩

/-- `RETAINED_BYTES`. -/
def retainedBytes : Nat := 64 * 1024 * 1024

namespace State

/-- `State::restore`. -/
def restore (s : State T) (handle : Nat) (resource : Resource) : Except KernelError (State T) :=
  if arenaLimit ≤ s.resources.keys.length + s.pending.keys.length then
    .error (.new "native network handle budget exhausted")
  else if handle ∈ s.resources then .error (.new "native network handle returned twice")
  else .ok { s with resources := s.resources.insert handle resource }

/-- `State::insert`. -/
def insert (s : State T) (resource : Resource) : Except KernelError (Nat × State T) :=
  if s.next = u64Max then .error (.new "native network handle identity exhausted")
  else do
    let restored ← { s with next := s.next + 1 }.restore s.next resource
    .ok (s.next, restored)

/-- `State::take`. -/
def take (s : State T) (handle : Nat) : Except KernelError (Resource × State T) :=
  match s.resources.lookup handle with
  | none =>
    .error (.new "native network handle is closed or belongs to a pending operation")
  | some resource => .ok (resource, { s with resources := s.resources.erase handle })

/-- `State::park`. -/
def park (s : State T) (order : Nat) (request : Request T) : Except KernelError (State T) :=
  if arenaLimit ≤ s.pending.keys.length + s.resources.keys.length then
    .error (.new "native network wait budget exhausted")
  else if Network.retainedBytes < s.retainedBytes + request.operation.bytes then
    .error (.new "native network buffer budget exhausted")
  else if order ∈ s.pending then .error (.new "duplicate native network wait identity")
  else
    .ok { s with
      pending := s.pending.insert order request
      retainedBytes := s.retainedBytes + request.operation.bytes }

/-- `State::take_pending`. -/
def takePending (s : State T) (order : Nat) : Except KernelError (Request T × State T) :=
  match s.pending.lookup order with
  | none => .error (.new "missing native network wait")
  | some request =>
    .ok (request, { s with
      pending := s.pending.erase order
      retainedBytes := s.retainedBytes - request.operation.bytes })

/-- `State::poll`, when the host finds these requests ready. -/
def poll (s : State T) (ready : Nat → Bool) : List Nat :=
  (s.pending.keys.mergeSort (· ≤ ·)).filter ready

/-- `State::has_pending`. -/
def hasPending (s : State T) : Bool := !s.pending.keys.isEmpty

/-- How many tasks wait for the network. -/
def held (s : State T) : Nat := s.pending.keys.length

variable {s s' : State T}

/-- A resource that is put back holds no action. -/
theorem held_restore {handle : Nat} {resource : Resource}
    (h : s.restore handle resource = .ok s') : s'.held = s.held := by
  unfold restore at h
  split at h
  · cases h
  · split at h
    · cases h
    · cases h
      rfl

/-- Neither does a new resource. -/
theorem held_insert {handle : Nat} {resource : Resource}
    (h : s.insert resource = .ok (handle, s')) : s'.held = s.held := by
  unfold insert at h
  split at h
  · cases h
  · cases hr : restore { s with next := s.next + 1 } s.next resource with
    | error e => rw [hr] at h; cases h
    | ok restored =>
      rw [hr] at h
      cases h
      exact (held_restore hr :)

theorem held_take {handle : Nat} {resource : Resource}
    (h : s.take handle = .ok (resource, s')) : s'.held = s.held := by
  unfold take at h
  split at h
  · cases h
  · cases h
    rfl

/-- A request that is parked holds its action. -/
theorem held_park {order : Nat} {request : Request T} (h : s.park order request = .ok s') :
    s'.held = s.held + 1 := by
  unfold park at h
  split at h
  · cases h
  · split at h
    · cases h
    · split at h
      · cases h
      · rename_i hnew
        cases h
        have hnew : order ∉ s.pending.keys := fun hmem => hnew (AList.mem_keys.mpr hmem)
        simp only [held, AList.keys_insert, List.length_cons, List.erase_of_not_mem hnew]

/-- A request that is taken gives its action back. -/
theorem held_takePending {order : Nat} {request : Request T}
    (h : s.takePending order = .ok (request, s')) : s.held = s'.held + 1 := by
  unfold takePending at h
  split at h
  · cases h
  · rename_i hlookup
    cases h
    have hmem : order ∈ s.pending.keys := by
      rw [← AList.mem_keys, ← AList.lookup_isSome, hlookup]
      rfl
    have hpos := List.length_pos_of_mem hmem
    simp only [held, AList.keys_erase, List.length_erase_of_mem hmem]
    omega

theorem held_eq_zero (h : s.hasPending = false) : s.held = 0 := by
  simpa [hasPending, held] using h

end State

end Network

end TeamyBend.Runtime
