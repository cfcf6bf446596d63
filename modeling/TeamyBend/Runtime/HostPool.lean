/-
# The pool of host workers

What the threads of `host_jobs.rs` share: the queue of the pool with its workers, the budget of the
leases, and the portals through which the machines of a process hand jobs over and get answers
back.  `Step` is one atomic act of one thread, so a run is any interleaving of machines and
workers: a lock is held for one act, and the two counters of the budget change in two acts.

A job names its portal by a number, where the source shares a flag and a channel.  What a task is
and what its reply holds are any types; a reply that is absent is that of a task that panicked.
A worker that waits for the queue is only counted.  The wake of the descriptor poller is left
out: it carries no job.
-/
import TeamyBend.Runtime.Scheduler
import TeamyBend.Library.Ledger

namespace TeamyBend.Runtime.HostPool

open HostJobs (Pending)

variable {T K R : Type}

/-! ## 1. Budget and queue -/

/-- `WORKERS`. -/
def workersLimit : Nat := 64

/-- `RETAINED_BYTES`. -/
def retainedBytes : Nat := 64 * 1024 * 1024

/-- `struct Budget`. -/
structure Budget where
  jobs : Nat
  bytes : Nat
  deriving Repr, DecidableEq

namespace Budget

/-- The first counter of `Budget::reserve`. -/
def reserveJob (b : Budget) : Except KernelError Budget :=
  if b.jobs < arenaLimit then .ok { b with jobs := b.jobs + 1 }
  else .error (.new "native host job budget exhausted")

/-- The second counter of `Budget::reserve`. -/
def reserveBytes (b : Budget) (bytes : Nat) : Except KernelError Budget :=
  if b.bytes + bytes ≤ retainedBytes then .ok { b with bytes := b.bytes + bytes }
  else .error (.new "native host buffer budget exhausted")

/-- The first counter of `Lease::drop`. -/
def releaseBytes (b : Budget) (bytes : Nat) : Budget := { b with bytes := b.bytes - bytes }

/-- The second counter of `Lease::drop`, and the way back of `Budget::reserve`. -/
def releaseJob (b : Budget) : Budget := { b with jobs := b.jobs - 1 }

end Budget

/-- `struct Job`, with the bytes of its lease. -/
structure Job (K : Type) where
  portal : Nat
  id : Nat
  bytes : Nat
  task : K
  deriving Repr, DecidableEq

/-- What no other job has. -/
def Job.key (job : Job K) : Nat × Nat := (job.portal, job.id)

/-- `struct Queue`. -/
structure Queue (K : Type) where
  jobs : List (Job K)
  workers : Nat
  busy : Nat
  deriving Repr, DecidableEq

namespace Queue

/-- Whether `Pool::submit` starts a worker. -/
def spawns (q : Queue K) : Bool :=
  decide (q.workers < workersLimit) && decide (q.workers ≤ q.jobs.length + q.busy)

/-- The jobs that a portal has in the queue. -/
def jobsOf (q : Queue K) (portal : Nat) : List (Job K) :=
  q.jobs.filter fun job => job.portal == portal

/-- `Pool::cancel`. -/
def cancel (q : Queue K) (portal : Nat) : Queue K :=
  { q with jobs := q.jobs.filter fun job => !(job.portal == portal) }

end Queue

/-! ## 2. Threads -/

/-- A worker with a job, at a place of the loop of `Pool::run`. -/
inductive Worker (K R : Type) where
  /-- Before the first look at the flag of the portal. -/
  | picked (job : Job K)
  /-- In `catch_unwind`. -/
  | running (job : Job K)
  /-- Before the second look. -/
  | ran (job : Job K) (reply : Option R)
  /-- Before `send`. -/
  | sending (job : Job K) (reply : Option R)
  /-- Before the queue is locked again. -/
  | leaving
  deriving Repr, DecidableEq

/-- `struct Finished`, with the job that it answers. -/
structure Finished (K R : Type) where
  job : Job K
  reply : Option R
  deriving Repr, DecidableEq

/-- `struct Completion`, with the job that it answers. -/
structure Completion (T K R : Type) where
  pending : Pending T
  job : Job K
  reply : Option R
  deriving Repr, DecidableEq

/-- The arguments of `State::submit`. -/
structure Request (T K : Type) where
  task : K
  continuation : T
  handle : Option Nat
  bytes : Nat
  deriving Repr, DecidableEq

/-- Where a machine is in `State::submit`. -/
inductive Submission (T K : Type) where
  | idle
  /-- Between the two counters. -/
  | reserving (request : Request T K)
  /-- With a lease, before the queue is locked. -/
  | leased (request : Request T K)
  /-- The submission failed, and the run of the machine with it. -/
  | failed
  deriving Repr, DecidableEq

/-- How far `State::drop` is. -/
inductive Life where
  | alive
  /-- The flag is set. -/
  | cancelled
  /-- The queue holds no job of the portal. -/
  | purged
  /-- The receiver is gone. -/
  | closed
  deriving Repr, DecidableEq

/-- `struct State` with its `Portal`.  What was accepted and what was completed is kept. -/
structure Portal (T K R : Type) where
  jobs : HostJobs.State T
  submission : Submission T K
  life : Life
  /-- The messages of the channel. -/
  channel : List (Finished K R)
  ready : List (Finished K R)
  /-- The completions that the machine has not dropped yet. -/
  packing : List (Completion T K R)
  accepted : List (Request T K)
  completed : List (Completion T K R)

namespace Portal

/-- `State::default`. -/
def default : Portal T K R := ⟨.default, .idle, .alive, [], [], [], [], []⟩

/-- The machine is in none of the functions of its state. -/
def Free (portal : Portal T K R) : Prop := portal.life = .alive ∧ portal.submission = .idle

/-- The next answer in `State::completed`. -/
def next (portal : Portal T K R) : Option (Finished K R × Portal T K R) :=
  match portal.ready with
  | finished :: ready => some (finished, { portal with ready })
  | [] =>
    match portal.channel with
    | finished :: channel => some (finished, { portal with channel })
    | [] => none

end Portal

/-! ## 3. The pool -/

/-- `struct Pool` with its threads and the portals.  What was run is kept. -/
structure Pool (T K R : Type) where
  queue : Queue K
  budget : Budget
  /-- The workers that are about to look into the queue. -/
  checking : Nat
  /-- The workers in `Condvar::wait`. -/
  waiting : Nat
  /-- The busy workers. -/
  threads : List (Worker K R)
  portals : List (Portal T K R)
  /-- The leases that are dropped, before their first counter. -/
  dropping : List Nat
  /-- The drops, and the ways back of a reservation, before the counter of the jobs. -/
  releasing : Nat
  runs : List (Job K × Option R)

namespace Pool

/-- `Pool::default`. -/
def default : Pool T K R := ⟨⟨[], 0, 0⟩, ⟨0, 0⟩, 0, 0, [], [], [], 0, []⟩

/-- A worker starts. -/
def startWorker (s : Pool T K R) : Pool T K R :=
  { s with queue := { s.queue with workers := s.queue.workers + 1 }, checking := s.checking + 1 }

/-- `Condvar::notify_one`. -/
def notifyOne (s : Pool T K R) : Pool T K R :=
  if s.waiting = 0 then s
  else { s with waiting := s.waiting - 1, checking := s.checking + 1 }

/-- The end of `Pool::submit`. -/
def push (s : Pool T K R) (job : Job K) : Pool T K R :=
  { s with queue := { s.queue with jobs := s.queue.jobs ++ [job] } }.notifyOne

/-- `Pool::submit`, when the host starts the worker that it asks for. -/
def submit (s : Pool T K R) (job : Job K) : Pool T K R :=
  (if s.queue.spawns then s.startWorker else s).push job

/-- A portal changes. -/
def setPortal (s : Pool T K R) (p : Nat) (portal : Portal T K R) : Pool T K R :=
  { s with portals := s.portals.set p portal }

/-- A busy worker goes on. -/
def setThread (s : Pool T K R) (i : Nat) (worker : Worker K R) : Pool T K R :=
  { s with threads := s.threads.set i worker }

/-- Leases go to be dropped. -/
def drop (s : Pool T K R) (leases : List Nat) : Pool T K R :=
  { s with dropping := s.dropping ++ leases }

end Pool

/-- One atomic act of a thread. -/
inductive Step : Pool T K R → Pool T K R → Prop where
  /-- A machine makes its `State`. -/
  | openPortal {s : Pool T K R} : Step s { s with portals := s.portals ++ [.default] }
  /-- The first counter of a reservation. -/
  | reserveJob {s : Pool T K R} {p : Nat} {portal : Portal T K R} {request : Request T K}
      {jobs : HostJobs.State T} {budget : Budget} (hportal : s.portals[p]? = some portal)
      (hfree : portal.Free)
      (hjobs : portal.jobs.submit request.continuation request.handle = .ok jobs)
      (hbudget : s.budget.reserveJob = .ok budget) :
      Step s ({ s with budget }.setPortal p { portal with submission := .reserving request })
  /-- A limit refuses a submission before anything is reserved. -/
  | refuse {s : Pool T K R} {p : Nat} {portal : Portal T K R} {request : Request T K}
      {e : KernelError} (hportal : s.portals[p]? = some portal) (hfree : portal.Free)
      (herror : portal.jobs.submit request.continuation request.handle = .error e ∨
        s.budget.reserveJob = .error e) :
      Step s (s.setPortal p { portal with submission := .failed })
  /-- The second counter. -/
  | reserveBytes {s : Pool T K R} {p : Nat} {portal : Portal T K R} {request : Request T K}
      {budget : Budget} (hportal : s.portals[p]? = some portal)
      (hsubmission : portal.submission = .reserving request)
      (hbudget : s.budget.reserveBytes request.bytes = .ok budget) :
      Step s ({ s with budget }.setPortal p { portal with submission := .leased request })
  /-- The second counter refuses, and the first one has to go back. -/
  | rollBack {s : Pool T K R} {p : Nat} {portal : Portal T K R} {request : Request T K}
      {e : KernelError} (hportal : s.portals[p]? = some portal)
      (hsubmission : portal.submission = .reserving request)
      (hbudget : s.budget.reserveBytes request.bytes = .error e) :
      Step s ({ s with releasing := s.releasing + 1 }.setPortal p
        { portal with submission := .failed })
  /-- `Pool::submit` and the rest of `State::submit`. -/
  | submit {s : Pool T K R} {p : Nat} {portal : Portal T K R} {request : Request T K}
      {jobs : HostJobs.State T} (hportal : s.portals[p]? = some portal)
      (hsubmission : portal.submission = .leased request)
      (hjobs : portal.jobs.submit request.continuation request.handle = .ok jobs) :
      Step s ((s.submit ⟨p, portal.jobs.next, request.bytes, request.task⟩).setPortal p
        { portal with jobs, submission := .idle, accepted := portal.accepted ++ [request] })
  /-- The host starts no worker. -/
  | cannotStart {s : Pool T K R} {p : Nat} {portal : Portal T K R} {request : Request T K}
      (hportal : s.portals[p]? = some portal)
      (hsubmission : portal.submission = .leased request) (hspawns : s.queue.spawns = true) :
      Step s ((s.drop [request.bytes]).setPortal p { portal with submission := .failed })
  /-- The first counter of `Lease::drop`. -/
  | releaseBytes {s : Pool T K R} {i bytes : Nat} (hdropping : s.dropping[i]? = some bytes) :
      Step s { s with
        budget := s.budget.releaseBytes bytes
        dropping := s.dropping.eraseIdx i
        releasing := s.releasing + 1 }
  /-- The second counter. -/
  | releaseJob {s : Pool T K R} {releasing : Nat} (hreleasing : s.releasing = releasing + 1) :
      Step s { s with budget := s.budget.releaseJob, releasing }
  /-- The queue is empty. -/
  | sleep {s : Pool T K R} {checking : Nat} (hchecking : s.checking = checking + 1)
      (hjobs : s.queue.jobs = []) : Step s { s with checking, waiting := s.waiting + 1 }
  /-- `Condvar::wait` may return without a reason. -/
  | wakeUp {s : Pool T K R} {waiting : Nat} (hwaiting : s.waiting = waiting + 1) :
      Step s { s with checking := s.checking + 1, waiting }
  | pickUp {s : Pool T K R} {checking : Nat} {job : Job K} {jobs : List (Job K)}
      (hchecking : s.checking = checking + 1) (hjobs : s.queue.jobs = job :: jobs) :
      Step s { s with
        queue := { s.queue with jobs, busy := s.queue.busy + 1 }
        checking
        threads := s.threads ++ [.picked job] }
  /-- The flag is not set yet. -/
  | start {s : Pool T K R} {i : Nat} {job : Job K} {portal : Portal T K R}
      (hthread : s.threads[i]? = some (.picked job))
      (hportal : s.portals[job.portal]? = some portal) (hlife : portal.life = .alive) :
      Step s (s.setThread i (.running job))
  | skip {s : Pool T K R} {i : Nat} {job : Job K} {portal : Portal T K R}
      (hthread : s.threads[i]? = some (.picked job))
      (hportal : s.portals[job.portal]? = some portal) (hlife : portal.life ≠ .alive) :
      Step s ((s.setThread i .leaving).drop [job.bytes])
  /-- The task runs to its end, or panics. -/
  | run {s : Pool T K R} {i : Nat} {job : Job K} (reply : Option R)
      (hthread : s.threads[i]? = some (.running job)) :
      Step s { s.setThread i (.ran job reply) with runs := s.runs ++ [(job, reply)] }
  | keep {s : Pool T K R} {i : Nat} {job : Job K} {reply : Option R} {portal : Portal T K R}
      (hthread : s.threads[i]? = some (.ran job reply))
      (hportal : s.portals[job.portal]? = some portal) (hlife : portal.life = .alive) :
      Step s (s.setThread i (.sending job reply))
  | discard {s : Pool T K R} {i : Nat} {job : Job K} {reply : Option R} {portal : Portal T K R}
      (hthread : s.threads[i]? = some (.ran job reply))
      (hportal : s.portals[job.portal]? = some portal) (hlife : portal.life ≠ .alive) :
      Step s ((s.setThread i .leaving).drop [job.bytes])
  | send {s : Pool T K R} {i : Nat} {job : Job K} {reply : Option R} {portal : Portal T K R}
      (hthread : s.threads[i]? = some (.sending job reply))
      (hportal : s.portals[job.portal]? = some portal) (hlife : portal.life ≠ .closed) :
      Step s ((s.setThread i .leaving).setPortal job.portal
        { portal with channel := portal.channel ++ [⟨job, reply⟩] })
  | cannotSend {s : Pool T K R} {i : Nat} {job : Job K} {reply : Option R}
      {portal : Portal T K R} (hthread : s.threads[i]? = some (.sending job reply))
      (hportal : s.portals[job.portal]? = some portal) (hlife : portal.life = .closed) :
      Step s ((s.setThread i .leaving).drop [job.bytes])
  | leave {s : Pool T K R} {i : Nat} (hthread : s.threads[i]? = some .leaving) :
      Step s { s with
        queue := { s.queue with busy := s.queue.busy - 1 }
        checking := s.checking + 1
        threads := s.threads.eraseIdx i }
  /-- `State::wait`. -/
  | wait {s : Pool T K R} {p : Nat} {portal : Portal T K R} {finished : Finished K R}
      {channel : List (Finished K R)} (hportal : s.portals[p]? = some portal)
      (hfree : portal.Free) (hready : portal.ready = [])
      (hchannel : portal.channel = finished :: channel) :
      Step s (s.setPortal p { portal with channel, ready := [finished] })
  /-- `State::completed`. -/
  | complete {s : Pool T K R} {p : Nat} {portal rest : Portal T K R} {finished : Finished K R}
      {pending : Pending T} {jobs : HostJobs.State T} (hportal : s.portals[p]? = some portal)
      (hfree : portal.Free) (hnext : portal.next = some (finished, rest))
      (hjobs : portal.jobs.completed (some finished.job.id) = .ok (some (pending, jobs))) :
      Step s (s.setPortal p { rest with
        jobs
        packing := rest.packing ++ [⟨pending, finished.job, finished.reply⟩]
        completed := rest.completed ++ [⟨pending, finished.job, finished.reply⟩] })
  /-- An answer that `State::completed` does not expect. -/
  | unexpected {s : Pool T K R} {p : Nat} {portal rest : Portal T K R} {finished : Finished K R}
      {e : KernelError} (hportal : s.portals[p]? = some portal) (hfree : portal.Free)
      (hnext : portal.next = some (finished, rest))
      (hjobs : portal.jobs.completed (some finished.job.id) = .error e) :
      Step s ((s.drop [finished.job.bytes]).setPortal p { rest with submission := .failed })
  /-- The machine drops a completion. -/
  | packed {s : Pool T K R} {p i : Nat} {portal : Portal T K R} {completion : Completion T K R}
      (hportal : s.portals[p]? = some portal)
      (hpacking : portal.packing[i]? = some completion) :
      Step s ((s.drop [completion.job.bytes]).setPortal p
        { portal with packing := portal.packing.eraseIdx i })
  /-- The flag of `State::drop`. -/
  | cancel {s : Pool T K R} {p : Nat} {portal : Portal T K R}
      (hportal : s.portals[p]? = some portal) (hlife : portal.life = .alive)
      (hsubmission : portal.submission = .idle ∨ portal.submission = .failed) :
      Step s (s.setPortal p { portal with life := .cancelled })
  /-- The rest of `State::drop`. -/
  | purge {s : Pool T K R} {p : Nat} {portal : Portal T K R}
      (hportal : s.portals[p]? = some portal) (hlife : portal.life = .cancelled) :
      Step s (({ s with queue := s.queue.cancel p }.drop
        ((s.queue.jobsOf p).map Job.bytes)).setPortal p { portal with life := .purged })
  /-- The fields of the state are dropped. -/
  | close {s : Pool T K R} {p : Nat} {portal : Portal T K R}
      (hportal : s.portals[p]? = some portal) (hlife : portal.life = .purged) :
      Step s ((s.drop ((portal.channel ++ portal.ready).map fun finished =>
        finished.job.bytes)).setPortal p
          { portal with life := .closed, channel := [], ready := [] })

/-- The pools that any interleaving reaches. -/
inductive Reached : Pool T K R → Prop where
  | default : Reached .default
  | step {s s' : Pool T K R} (hs : Reached s) (h : Step s s') : Reached s'

end TeamyBend.Runtime.HostPool
