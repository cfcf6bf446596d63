/-
# The file table of the C runtime

What `executable_files.c` and the workers of `executable_io.c` do to the rows of open files.  The
machine of the program, its workers and the end of the host share the table under one lock, and
`Step` is one locked section of one thread, with what the thread does on its own around it.

A row is named by its number, where the source links them, and a descriptor of -1 is absent.  The
handles that the program holds are part of the state: it uses and closes those only.  Of the
operating system, `owned` are the descriptors that were opened through the table and are open.
What a job reads or writes is left out, and so are jobs without a file but for their place.
-/
import Mathlib.Data.List.Nodup
import TeamyBend.Library.Ledger

namespace TeamyBend.Runtime.FileTable

/-- `BEND_MAX_ACTIONS`. -/
def maxActions : Nat := 131072

/-- `BEND_MAX_WORKERS`. -/
def maxWorkers : Nat := 64

/-- `UINT32_MAX`. -/
def maxBusy : Nat := 2 ^ 32 - 1

/-- `INT_MAX`. -/
def maxDescriptor : Nat := 2 ^ 31 - 1

/-! ## 1. The table -/

/-- `struct TBFile`. -/
structure File where
  descriptor : Option Nat
  busy : Nat
  live : Bool
  closing : Bool
  deriving Repr, DecidableEq

/-- The row carries a descriptor. -/
def File.carries (file : File) (hand : Nat) : Bool := file.live && file.descriptor == some hand

/-- The descriptors of the operating system, with what was opened and closed through the table. -/
structure System where
  owned : List Nat
  opened : List Nat
  closed : List Nat
  /-- The descriptors that were closed and did not belong to the table. -/
  stray : List Nat
  deriving Repr, DecidableEq

namespace System

/-- `open`, when it returns a descriptor. -/
def opens (system : System) (descriptor : Nat) : System :=
  { system with
    owned := descriptor :: system.owned
    opened := system.opened ++ [descriptor] }

/-- `tb_file_close_system`. -/
def close (system : System) (descriptor : Nat) : System :=
  if descriptor ∈ system.owned then
    { system with
      owned := system.owned.erase descriptor
      closed := system.closed ++ [descriptor] }
  else { system with stray := system.stray ++ [descriptor] }

end System

/-- The part of `struct TBHost` that the files use.  The rows are in the order of their making. -/
structure Host where
  files : List File
  idle : List Nat
  stopped : Bool
  system : System
  deriving Repr, DecidableEq

namespace Host

def setFile (host : Host) (r : Nat) (file : File) : Host :=
  { host with files := host.files.set r file }

/-- `tb_file_retire`. -/
def retire (host : Host) (r : Nat) (file : File) : Host :=
  { host.setFile r { file with descriptor := none, live := false, closing := false } with
    idle := r :: host.idle
    system :=
      match file.descriptor with
      | some descriptor => host.system.close descriptor
      | none => host.system }

/-- `tb_file_job_finished`, for the row of the action. -/
def jobFinished (host : Host) (row : Option Nat) : Host :=
  match row with
  | none => host
  | some r =>
    match host.files[r]? with
    | none => host
    | some file =>
      let file := { file with busy := file.busy - 1 }
      if file.busy = 0 ∧ (host.stopped ∨ file.closing ∨ file.descriptor = none) then
        host.retire r file
      else host.setFile r file

/-- The rows, the newest first. -/
def rows (host : Host) : List Nat := (List.range host.files.length).reverse

/-- The first row that carries a descriptor. -/
def find (host : Host) (hand : Nat) : Option Nat :=
  host.rows.find? fun r => (host.files[r]?).any fun file => file.carries hand

/-- `tb_file_lease`: the row of the action, unless the lease is refused. -/
def lease (host : Host) (hand : Nat) : Option (Option Nat × Host) :=
  match host.find hand with
  | none => some (none, host)
  | some r =>
    match host.files[r]? with
    | none => some (none, host)
    | some file =>
      if file.closing ∨ file.busy = maxBusy then none
      else some (some r, host.setFile r { file with busy := file.busy + 1 })

/-- `tb_file_close_run`. -/
def close (host : Host) (hand : Nat) : Host :=
  match host.find hand with
  | none =>
    if hand ≤ maxDescriptor then { host with system := host.system.close hand } else host
  | some r =>
    match host.files[r]? with
    | none => host
    | some file =>
      let file := { file with closing := true }
      if file.busy = 0 then host.retire r file else host.setFile r file

/-- One row in `tb_files_shutdown`. -/
def sweep (host : Host) (r : Nat) : Host :=
  match host.files[r]? with
  | none => host
  | some file => if file.live ∧ file.busy = 0 then host.retire r file else host

/-- `tb_files_shutdown`. -/
def shutdown (host : Host) : Host := host.rows.foldl sweep host

/-- One row in `tb_files_release`. -/
def closeFile (files : List File) (system : System) (r : Nat) : System :=
  match files[r]? with
  | none => system
  | some file =>
    match file.live, file.descriptor with
    | true, some descriptor => system.close descriptor
    | _, _ => system

/-- `tb_files_release`. -/
def release (host : Host) : Host :=
  { host with system := host.rows.foldl (closeFile host.files) host.system }

end Host

/-! ## 2. Threads -/

/-- `work->call`. -/
inductive Call where
  | open
  /-- A read, or a write that is not empty. -/
  | use (hand : Nat)
  /-- A call that leaves the table alone. -/
  | other
  deriving Repr, DecidableEq

/-- The part of `struct IoAct` that a worker needs. -/
structure Job where
  call : Call
  /-- `action->file`. -/
  row : Option Nat
  deriving Repr, DecidableEq

/-- Where `tb_worker` is. -/
inductive Worker where
  | running (job : Job)
  /-- Between `open` and the lock of `tb_file_open_call`. -/
  | opened (job : Job) (made : Option Nat)
  /-- Before `tb_file_job_finished`. -/
  | called (job : Job) (made : Option Nat)
  /-- Before the lock of the completed queue. -/
  | finished (made : Option Nat)
  /-- Before `tb_host_release`. -/
  | leaving
  deriving Repr, DecidableEq

/-- Where the thread of the program is. -/
inductive Vm where
  | ready
  /-- In `tb_file_reserve`, with the row that it took from the idle list or made. -/
  | reserving (row : Option Nat)
  /-- In the loop of `tb_start_jobs`. -/
  | starting
  /-- No thread was started for the job. -/
  | unstarted (job : Job)
  /-- The lease of that job is back. -/
  | refused
  /-- After `err_fail`. -/
  | failed
  /-- In `tb_io_shutdown`, with `stopped` set. -/
  | stopping
  /-- Before `tb_host_release`. -/
  | stopped
  | exited
  deriving Repr, DecidableEq

/-- The host with its threads. -/
structure State where
  host : Host
  vm : Vm
  /-- The handles that the program opened and did not close. -/
  handles : List Nat
  /-- `io_jobs`. -/
  jobs : List Job
  workers : List Worker
  /-- What `work->made` is in the actions of the completed queue. -/
  completed : List (Option Nat)
  active : Nat
  references : Nat
  deriving Repr, DecidableEq

namespace State

/-- `tb_run`. -/
def default : State :=
  ⟨⟨[], [], false, ⟨[], [], [], []⟩⟩, .ready, [], [], [], [], 0, 1⟩

def setWorker (s : State) (i : Nat) (worker : Worker) : State :=
  { s with workers := s.workers.set i worker }

/-- `tb_host_release`. -/
def dropReference (s : State) : State :=
  { s with
    references := s.references - 1
    host := if s.references - 1 = 0 then s.host.release else s.host }

end State

/-- One locked section of a thread. -/
inductive Step : State → State → Prop where
  /-- The first section of `tb_file_reserve`. -/
  | reserve {s : State} (hvm : s.vm = .ready) :
      Step s { s with
        vm := .reserving s.host.idle.head?
        host := { s.host with idle := s.host.idle.tail } }
  /-- The second section, when no row was idle. -/
  | create {s : State} (hvm : s.vm = .reserving none)
      (hroom : s.host.files.length < maxActions) :
      Step s { s with
        vm := .reserving (some s.host.files.length)
        host := { s.host with files := s.host.files ++ [⟨none, 0, false, false⟩] } }
  | cannotCreate {s : State} (hvm : s.vm = .reserving none) : Step s { s with vm := .failed }
  /-- The third section, and the job goes to the queue. -/
  | open {s : State} {r : Nat} (hvm : s.vm = .reserving (some r)) :
      Step s { s with
        vm := .starting
        host := s.host.setFile r ⟨none, 1, true, false⟩
        jobs := s.jobs ++ [⟨.open, some r⟩] }
  /-- A read or a write. -/
  | use {s : State} {hand : Nat} {row : Option Nat} {host : Host} (hvm : s.vm = .ready)
      (hhand : hand ∈ s.handles) (hlease : s.host.lease hand = some (row, host)) :
      Step s { s with vm := .starting, host, jobs := s.jobs ++ [⟨.use hand, row⟩] }
  /-- The lease is refused, and the program is told so. -/
  | refuse {s : State} {hand : Nat} (hvm : s.vm = .ready) (hhand : hand ∈ s.handles)
      (hlease : s.host.lease hand = none) : Step s s
  /-- A job without a file, such as a write of nothing. -/
  | plain {s : State} (hvm : s.vm = .ready) :
      Step s { s with vm := .starting, jobs := s.jobs ++ [⟨.other, none⟩] }
  | close {s : State} {hand : Nat} (hvm : s.vm = .ready) (hhand : hand ∈ s.handles) :
      Step s { s with host := s.host.close hand, handles := s.handles.erase hand }
  /-- `io_take`, with the packs of the opened files. -/
  | take {s : State} (hvm : s.vm = .ready) :
      Step s { s with
        vm := .starting
        handles := s.handles ++ s.completed.reduceOption
        completed := [] }
  /-- A job gets a thread. -/
  | start {s : State} {job : Job} {jobs : List Job} (hvm : s.vm = .starting)
      (hjobs : s.jobs = job :: jobs) (hactive : s.active < maxWorkers) :
      Step s { s with
        jobs
        workers := s.workers ++ [.running job]
        active := s.active + 1
        references := s.references + 1 }
  | cannotStart {s : State} {job : Job} {jobs : List Job} (hvm : s.vm = .starting)
      (hjobs : s.jobs = job :: jobs) (hactive : s.active < maxWorkers) :
      Step s { s with
        vm := .unstarted job
        jobs
        active := s.active + 1
        references := s.references + 1 }
  /-- Every job has a thread, or no thread is left. -/
  | started {s : State} (hvm : s.vm = .starting)
      (hjobs : s.jobs = [] ∨ ¬s.active < maxWorkers) : Step s { s with vm := .ready }
  /-- `tb_file_job_finished` of a job that has no thread. -/
  | giveBack {s : State} {job : Job} (hvm : s.vm = .unstarted job) :
      Step s { s with vm := .refused, host := s.host.jobFinished job.row }
  | giveUp {s : State} (hvm : s.vm = .refused) :
      Step s { s with
        vm := .failed
        active := s.active - 1
        references := s.references - 1 }
  /-- Any other failure of the program. -/
  | fail {s : State} (hvm : s.vm = .ready) : Step s { s with vm := .failed }
  /-- `open` in `tb_file_open_call`. -/
  | callOpen {s : State} {i descriptor : Nat} {row : Option Nat}
      (hworker : s.workers[i]? = some (.running ⟨.open, row⟩))
      (hfresh : descriptor ∉ s.host.system.owned) :
      Step s { s.setWorker i (.opened ⟨.open, row⟩ (some descriptor)) with
        host := { s.host with system := s.host.system.opens descriptor } }
  | cannotOpen {s : State} {i : Nat} {row : Option Nat}
      (hworker : s.workers[i]? = some (.running ⟨.open, row⟩)) :
      Step s (s.setWorker i (.opened ⟨.open, row⟩ none))
  /-- The locked section of `tb_file_open_call`. -/
  | publish {s : State} {i r : Nat} {call : Call} {made : Option Nat} {file : File}
      (hworker : s.workers[i]? = some (.opened ⟨call, some r⟩ made))
      (hfile : s.host.files[r]? = some file) :
      Step s { s.setWorker i (.called ⟨call, some r⟩ made) with
        host := s.host.setFile r { file with descriptor := made } }
  /-- Every other call, and an open that fails before `open`. -/
  | call {s : State} {i : Nat} {job : Job} (hworker : s.workers[i]? = some (.running job)) :
      Step s (s.setWorker i (.called job none))
  /-- `tb_file_job_finished` of a worker. -/
  | finish {s : State} {i : Nat} {job : Job} {made : Option Nat}
      (hworker : s.workers[i]? = some (.called job made)) :
      Step s { s.setWorker i (.finished made) with host := s.host.jobFinished job.row }
  | complete {s : State} {i : Nat} {made : Option Nat}
      (hworker : s.workers[i]? = some (.finished made)) :
      Step s { s.setWorker i .leaving with
        active := s.active - 1
        completed := if s.host.stopped then s.completed else s.completed ++ [made] }
  | leave {s : State} {i : Nat} (hworker : s.workers[i]? = some .leaving) :
      Step s { s with workers := s.workers.eraseIdx i }.dropReference
  /-- The loop of the program ends, or failed. -/
  | stop {s : State} (hvm : s.vm = .ready ∨ s.vm = .failed) :
      Step s { s with vm := .stopping, host := { s.host with stopped := true } }
  | cancel {s : State} {job : Job} {jobs : List Job} (hvm : s.vm = .stopping)
      (hjobs : s.jobs = job :: jobs) :
      Step s { s with jobs, host := s.host.jobFinished job.row }
  | shutdown {s : State} (hvm : s.vm = .stopping) (hjobs : s.jobs = []) :
      Step s { s with vm := .stopped, host := s.host.shutdown }
  | release {s : State} (hvm : s.vm = .stopped) : Step s { s with vm := .exited }.dropReference

/-- The states that any interleaving reaches. -/
inductive Reached : State → Prop where
  | default : Reached .default
  | step {s s' : State} (hs : Reached s) (h : Step s s') : Reached s'

end TeamyBend.Runtime.FileTable
