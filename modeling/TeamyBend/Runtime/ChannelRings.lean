/-
# Channels of generated programs

The channels of `executable_io.c`.  A row keeps its payloads in a ring of its capacity and has one
queue of parked tasks, where a task without an item waits to receive; free rows form a chain
through `next`.  `TERM_HOLE` and a slot that was never filled are both none here.

Each function of the source works on one row and on the static variables `chan_idle` and
`io_runs`, and on the flags of tasks: `Turn` holds them for the time of one call.  A call that has
a fault ends the program, so it leaves no state.

The values a task gets are those of `channels.rs`: `chan_bool`, `chan_some`, `None` and `Unit`.
-/
import TeamyBend.Runtime.ChannelsTable
import TeamyBend.Library.RingBuffer
import TeamyBend.Library.Handles

namespace TeamyBend.Runtime.Channels

open Library Library.RingBuffer

/-! ## 1. The rows -/

/-- `BEND_MAX_ACTIONS`. -/
def bendMaxActions : Nat := 131072

/-- A parked task and its item. -/
structure IoAct (P K : Type) where
  task : K
  item : Option P

/-- `struct ChanRow`. -/
structure ChanRow (P K : Type) where
  gen : Nat
  next : Nat
  room : Nat
  size : Nat
  head : Nat
  live : Bool
  shut : Bool
  ring : List (Option P)
  wait : List (IoAct P K)

/-- The static variables of channels, and the tasks whose flag `parked` is set. -/
structure Rings (P K : Type) where
  rows : List (ChanRow P K)
  idle : Nat
  parked : List K

/-- What ends the program: a call of `err_fail`, or an access where nothing is. -/
inductive Fault where
  | Fail (message : String)
  | Hole
  deriving DecidableEq

variable {P K : Type}

/-- What one call works on; the tasks that it pushed to `io_runs` come last. -/
structure Turn (P K : Type) where
  row : ChanRow P K
  idle : Nat
  parked : List K
  wakes : List (Wake P K)

namespace Turn

/-- `chan_park`. -/
def park [DecidableEq K] (t : Turn P K) (task : K) (item : Option P) : Except Fault (Turn P K) :=
  if task ∈ t.parked then .error (.Fail "activation already parked")
  else .ok { t with
    row := { t.row with wait := t.row.wait ++ [⟨task, item⟩] }
    parked := task :: t.parked }

/-- `chan_wake`: the item that the task had. -/
def wake [DecidableEq K] (t : Turn P K) (value : Answer P) : Except Fault (Option P × Turn P K) :=
  match t.row.wait with
  | [] => .error .Hole
  | action :: wait => .ok (action.item,
    { t with
      row := { t.row with wait }
      parked := t.parked.erase action.task
      wakes := t.wakes ++ [⟨action.task, value⟩] })

/-- `chan_free`. -/
def free (t : Turn P K) (index : Nat) : Turn P K :=
  { t with
    row := { t.row with ring := [], live := false, next := t.idle }
    idle := index }

/-- An item behind the last of the ring. -/
def put (t : Turn P K) (item : Option P) : Turn P K :=
  { t with row := { t.row with
    ring := t.row.ring.set ((t.row.head + t.row.size) % t.row.room) item
    size := t.row.size + 1 } }

/-- `chan_take`. -/
def take [DecidableEq K] (t : Turn P K) : Except Fault (P × Turn P K) :=
  match t.row.ring[t.row.head]? with
  | some (some value) =>
    let t := { t with row := { t.row with
      ring := t.row.ring.set t.row.head none
      head := (t.row.head + 1) % t.row.room
      size := t.row.size - 1 } }
    match t.row.wait with
    | [] => return (value, t)
    | _ :: _ => do
      let (item, t) ← t.wake (.Bool true)
      return (value, t.put item)
  | _ => .error .Hole

/-- The loop of `chan_shut`, for as many turns as tasks wait. -/
def wakeAll [DecidableEq K] : Nat → Turn P K → Except Fault (Turn P K)
  | 0, t => .ok t
  | turns + 1, t =>
    match t.row.wait with
    | [] => .ok t
    | action :: _ => do
      let (_, t) ← t.wake (if action.item.isNone then .None else .Bool false)
      wakeAll turns t

/-- `chan_shut`. -/
def shut [DecidableEq K] (t : Turn P K) (index : Nat) : Except Fault (Turn P K) := do
  let t ← wakeAll t.row.wait.length { t with row := { t.row with shut := true } }
  return if t.row.size = 0 then t.free index else t

end Turn

/-- What `chan_open` writes into a row. -/
def ChanRow.opened (row : ChanRow P K) (gen room : Nat) : ChanRow P K :=
  { row with
    gen := gen
    room := room
    size := 0
    head := 0
    live := true
    shut := false
    ring := List.replicate room none
    wait := [] }

/-- The value of a handle. -/
def rawHandle (gen index : Nat) : Nat := (gen <<< 24) ||| index

namespace Rings

/-- The static variables at the start. -/
def start : Rings P K := ⟨[], u32Max, []⟩

/-- The row of `memset`. -/
def blankRow : ChanRow P K := ⟨0, 0, 0, 0, 0, false, false, [], []⟩

/-- The first half of `chan_open`: a row of the chain, or a new one. -/
def vacate (s : Rings P K) : Except Fault (Nat × Rings P K) :=
  if s.idle ≠ u32Max then
    match s.rows[s.idle]? with
    | some row => .ok (s.idle, { s with idle := row.next })
    | none => .error .Hole
  else if bendMaxActions ≤ s.rows.length then .error (.Fail "channel count budget exhausted")
  else .ok (s.rows.length, { s with rows := s.rows ++ [blankRow] })

/-- The second half of `chan_open`. -/
def occupy (s : Rings P K) (index room : Nat) : Except Fault (Nat × Rings P K) :=
  match s.rows[index]? with
  | none => .error .Hole
  | some row =>
    if row.gen = u32Max then .error (.Fail "channel generation exhausted")
    else .ok (rawHandle (row.gen + 1) index,
      { s with rows := s.rows.set index (row.opened (row.gen + 1) room) })

/-- `chan_open`. -/
def «open» (s : Rings P K) (room : Nat) : Except Fault (Nat × Rings P K) :=
  if bendMaxActions < room then .error (.Fail "channel capacity budget exhausted")
  else do
    let (index, s) ← s.vacate
    s.occupy index room

/-- `chan_at`. -/
def chanAt (s : Rings P K) (raw : Nat) : Option (Nat × ChanRow P K) :=
  let index := raw &&& 0xffffff
  match s.rows[index]? with
  | none => none
  | some row =>
    if row.live && row.gen == (raw >>> 24) % 2 ^ 32 then some (index, row) else none

/-- A row and the static variables for one call. -/
def turn (s : Rings P K) (row : ChanRow P K) : Turn P K := ⟨row, s.idle, s.parked, []⟩

/-- The end of a call. -/
def finish (s : Rings P K) (index : Nat) (outcome : Outcome P) (t : Turn P K) :
    Transition P K × Rings P K :=
  (⟨outcome, t.wakes⟩, ⟨s.rows.set index t.row, t.idle, t.parked⟩)

/-- `tb_chan_send_run`. -/
def send [DecidableEq K] (s : Rings P K) (raw : Nat) (payload : P) (task : K) :
    Except Fault (Transition P K × Rings P K) :=
  match s.chanAt raw with
  | none => return (.ready (.Bool false), s)
  | some (index, row) =>
    if row.shut then return (.ready (.Bool false), s)
    else if row.wait.head?.any (·.item.isNone) then do
      let (_, t) ← (s.turn row).wake (.Some payload)
      return s.finish index (.Ready (.Bool true)) t
    else if row.size < row.room then
      return s.finish index (.Ready (.Bool true)) ((s.turn row).put (some payload))
    else do
      let t ← (s.turn row).park task (some payload)
      return s.finish index .Parked t

/-- `tb_chan_recv_run`. -/
def recv [DecidableEq K] (s : Rings P K) (raw : Nat) (task : K) :
    Except Fault (Transition P K × Rings P K) :=
  match s.chanAt raw with
  | none => return (.ready .None, s)
  | some (index, row) =>
    if row.size ≠ 0 then do
      let (value, t) ← (s.turn row).take
      return s.finish index (.Ready (.Some value))
        (if t.row.shut ∧ t.row.size = 0 then t.free index else t)
    else if row.wait.head?.any (·.item.isSome) then do
      let (item, t) ← (s.turn row).wake (.Bool true)
      match item with
      | some value => return s.finish index (.Ready (.Some value)) t
      | none => .error .Hole
    else if row.shut then return s.finish index (.Ready .None) ((s.turn row).free index)
    else do
      let t ← (s.turn row).park task none
      return s.finish index .Parked t

/-- `tb_chan_close_run`. -/
def close [DecidableEq K] (s : Rings P K) (raw : Nat) :
    Except Fault (Transition P K × Rings P K) :=
  match s.chanAt raw with
  | none => return (.ready .Unit, s)
  | some (index, row) => do
    let t ← (s.turn row).shut index
    return s.finish index (.Ready .Unit) t

end Rings

/-! ## 2. Two tables -/

/-- What a task asks of a channel. -/
inductive Request (P K : Type) where
  | send (payload : P) (task : K)
  | recv (task : K)
  | close

/-- The task of a waiting party. -/
def Waiter.task : Waiter P K → K
  | Sender continuation _ => continuation
  | Receiver continuation => continuation

/-- The tasks that wait in a row. -/
def Row.tasks (row : Row P K) : List K :=
  match row.channel with
  | some channel => channel.wait.map Waiter.task
  | none => []

/-- The tasks that wait. -/
def State.tasks (s : State P K) : List K := s.rows.flatMap Row.tasks

/-- Why the interpreter does not do a request: the task waits, or it fails. -/
inductive Refusal where
  | Waits
  | Fails (err : KernelError)

/-- A result of `channels.rs` as one of a table. -/
def Refusal.lift {α S : Type} : Except KernelError α × S → Except Refusal (α × S)
  | (.ok a, s) => .ok (a, s)
  | (.error err, _) => .error (.Fails err)

theorem Refusal.lift_eq {α S : Type} {r : Except KernelError α × S} {a : α} {t : S}
    (h : Refusal.lift r = .ok (a, t)) : r = (.ok a, t) := by
  obtain ⟨result, t₁⟩ := r
  cases result with
  | error err => cases h
  | ok a₁ =>
    cases h
    rfl

/-- The table of the interpreter.  A task that waits asks nothing. -/
def interpreted [DecidableEq K] :
    Handles.Table (State P K) Handle Nat (Request P K) (Transition P K) Refusal where
  start := .default
  «open» s room := Refusal.lift (s.open room)
  call s handle
    | .send payload task =>
      if task ∈ s.tasks then .error .Waits else Refusal.lift (s.send handle payload task)
    | .recv task =>
      if task ∈ s.tasks then .error .Waits else Refusal.lift (s.recv handle task)
    | .close => .ok (s.close handle)

/-- The table of a generated program. -/
def generated [DecidableEq K] :
    Handles.Table (Rings P K) Nat Nat (Request P K) (Transition P K) Fault where
  start := .start
  «open» := Rings.open
  call s raw
    | .send payload task => s.send raw payload task
    | .recv task => s.recv raw task
    | .close => s.close raw

end TeamyBend.Runtime.Channels
