/-
# Native channels

The table of `channels.rs`: rows that are used again with a higher generation, a list of free
rows, and one queue of waiting parties for each channel.  The module never looks into a payload
or a continuation, so the model takes any type for them; the runtime uses thunk identifiers for
both.

An operation gives its result and the state it leaves, also when it fails.  `VecDeque` and `Vec`
are lists (a `Vec` used as a stack has its top at the end), and giving memory back (`compact`)
has no counterpart.  Rust counts in `usize` and `u32`; the one test against `u32::MAX` is kept.
-/
import TeamyBend.Kernel.Error
import Mathlib.Data.List.Induction
import TeamyBend.Library.BoundedChannel

namespace TeamyBend.Runtime

/-- `ARENA_LIMIT`. -/
def arenaLimit : Nat := 131072

namespace Channels

/-- `u32::MAX`. -/
def u32Max : Nat := 4294967295

/-! ## 1. The table -/

/-- `struct Handle`. -/
structure Handle where
  index : Nat
  generation : Nat
  deriving Repr, DecidableEq

variable {P K P' K' : Type}

/-- `enum Answer`. -/
inductive Answer (P : Type) where
  | Bool (b : Bool)
  | Some (payload : P)
  | None
  | Unit
  deriving Repr, DecidableEq

/-- `enum Outcome`. -/
inductive Outcome (P : Type) where
  | Ready (answer : Answer P)
  | Parked
  deriving Repr, DecidableEq

/-- `struct Wake`. -/
structure Wake (P K : Type) where
  continuation : K
  answer : Answer P
  deriving Repr, DecidableEq

/-- `struct Transition`. -/
structure Transition (P K : Type) where
  outcome : Outcome P
  wakes : List (Wake P K)
  deriving Repr, DecidableEq

/-- `Transition::ready`. -/
def Transition.ready (answer : Answer P) : Transition P K := ⟨.Ready answer, []⟩

/-- `Transition::parked`. -/
def Transition.parked : Transition P K := ⟨.Parked, []⟩

/-- `Transition::waking`. -/
def Transition.waking (answer : Answer P) (continuation : K) (wakeAnswer : Answer P) :
    Transition P K :=
  ⟨.Ready answer, [⟨continuation, wakeAnswer⟩]⟩

/-- `enum Waiter`. -/
inductive Waiter (P K : Type) where
  | Sender (continuation : K) (payload : P)
  | Receiver (continuation : K)
  deriving Repr, DecidableEq

/-- The test by which `State::close` counts the payloads that go. -/
def Waiter.isSender : Waiter P K → Bool
  | Sender _ _ => true
  | Receiver _ => false

/-- `struct Channel`. -/
structure Channel (P K : Type) where
  room : Nat
  closed : Bool
  buffer : List P
  wait : List (Waiter P K)
  deriving Repr, DecidableEq

/-- The test `has_receiver` of `State::send`. -/
def Channel.hasReceiver (channel : Channel P K) : Bool :=
  match channel.wait.head? with
  | some (.Receiver _) => true
  | _ => false

/-- The test `has_sender` of `State::recv`. -/
def Channel.hasSender (channel : Channel P K) : Bool :=
  match channel.wait.head? with
  | some (.Sender _ _) => true
  | _ => false

/-- `struct Row`. -/
structure Row (P K : Type) where
  generation : Nat
  channel : Option (Channel P K)
  deriving Repr, DecidableEq

/-- `struct State`. -/
structure State (P K : Type) where
  rows : List (Row P K)
  free : List Nat
  payloads : Nat
  waiters : Nat
  deriving Repr, DecidableEq

/-- `State::default`. -/
def State.default : State P K := ⟨[], [], 0, 0⟩

namespace State

/-- Replace the channel of one row. -/
def setChannel (s : State P K) (index : Nat) (channel : Option (Channel P K)) : State P K :=
  { s with rows := s.rows.modify index fun row => { row with channel } }

/-- The end of `State::open`: the row at `index` takes its next generation and a new channel. -/
def openAt (s : State P K) (index room : Nat) : Except KernelError Handle × State P K :=
  match s.rows[index]? with
  | none => (.error .outOfBounds, s)
  | some row =>
    if row.generation = u32Max then
      (.error (.new "IO channel generation exhausted"), s)
    else
      (.ok ⟨index, row.generation + 1⟩,
        { s with rows := s.rows.set index ⟨row.generation + 1, some ⟨room, false, [], []⟩⟩ })

/-- `State::open`. -/
def «open» (s : State P K) (room : Nat) : Except KernelError Handle × State P K :=
  match s.free.getLast? with
  | some index => openAt { s with free := s.free.dropLast } index room
  | none =>
    if arenaLimit ≤ s.rows.length then
      (.error (.new "IO channel table budget exhausted"), s)
    else openAt { s with rows := s.rows ++ [⟨0, none⟩] } s.rows.length room

/-- `State::at`. -/
def channelAt (s : State P K) (handle : Handle) : Option (Channel P K) :=
  match s.rows[handle.index]? with
  | none => none
  | some row => if row.generation = handle.generation then row.channel else none

/-- `State::release`: a row whose generation cannot grow is retired. -/
def release (s : State P K) (index : Nat) : State P K :=
  match s.rows[index]? with
  | none => s
  | some row =>
    let s := s.setChannel index none
    if row.generation < u32Max then { s with free := s.free ++ [index] } else s

/-- `State::send`. -/
def send (s : State P K) (handle : Handle) (payload : P) (continuation : K) :
    Except KernelError (Transition P K) × State P K :=
  match s.channelAt handle with
  | none => (.ok (.ready (.Bool false)), s)
  | some channel =>
    if channel.closed then (.ok (.ready (.Bool false)), s)
    else
      let hasReceiver := channel.hasReceiver
      let canBuffer := decide (channel.buffer.length < channel.room)
      if !hasReceiver && decide (arenaLimit ≤ s.payloads) then
        (.error (.new "IO channel payload budget exhausted"), s)
      else if !hasReceiver && !canBuffer && decide (arenaLimit ≤ s.waiters) then
        (.error (.new "IO channel waiter budget exhausted"), s)
      else if hasReceiver then
        match channel.wait with
        | .Receiver receiver :: wait =>
          (.ok (.waking (.Bool true) receiver (.Some payload)),
            { s.setChannel handle.index (some { channel with wait }) with
              waiters := s.waiters - 1 })
        | _ => (.error (.new "invalid native channel receiver"), s)
      else if canBuffer then
        (.ok (.ready (.Bool true)),
          { s.setChannel handle.index
              (some { channel with buffer := channel.buffer ++ [payload] }) with
            payloads := s.payloads + 1 })
      else
        (.ok .parked,
          { s.setChannel handle.index
              (some { channel with wait := channel.wait ++ [.Sender continuation payload] }) with
            payloads := s.payloads + 1, waiters := s.waiters + 1 })

/-- The end of a receive that found something buffered: a channel that is closed and empty is
released. -/
def releaseIfDone (s : State P K) (index : Nat) (channel : Channel P K) : State P K :=
  if channel.closed && channel.buffer.isEmpty then s.release index else s

/-- `State::recv`. -/
def recv (s : State P K) (handle : Handle) (continuation : K) :
    Except KernelError (Transition P K) × State P K :=
  match s.channelAt handle with
  | none => (.ok (.ready .None), s)
  | some channel =>
    let hasSender := channel.hasSender
    if channel.buffer.isEmpty && !hasSender && !channel.closed && decide (arenaLimit ≤ s.waiters)
    then (.error (.new "IO channel waiter budget exhausted"), s)
    else
      match channel.buffer with
      | payload :: buffer =>
        match channel.wait with
        | .Sender sender waiting :: wait =>
          let channel := { channel with buffer := buffer ++ [waiting], wait }
          let s := { s.setChannel handle.index (some channel) with
            payloads := s.payloads - 1, waiters := s.waiters - 1 }
          (.ok ⟨.Ready (.Some payload), [⟨sender, .Bool true⟩]⟩,
            s.releaseIfDone handle.index channel)
        | .Receiver _ :: wait =>
          (.error (.new "invalid native buffered channel waiter"),
            { s.setChannel handle.index (some { channel with buffer, wait }) with
              payloads := s.payloads - 1 })
        | [] =>
          let channel := { channel with buffer }
          let s := { s.setChannel handle.index (some channel) with payloads := s.payloads - 1 }
          (.ok (.ready (.Some payload)), s.releaseIfDone handle.index channel)
      | [] =>
        if hasSender then
          match channel.wait with
          | .Sender sender payload :: wait =>
            (.ok (.waking (.Some payload) sender (.Bool true)),
              { s.setChannel handle.index (some { channel with wait }) with
                payloads := s.payloads - 1, waiters := s.waiters - 1 })
          | _ => (.error (.new "invalid native channel sender"), s)
        else if channel.closed then (.ok (.ready .None), s.release handle.index)
        else
          (.ok .parked,
            { s.setChannel handle.index
                (some { channel with wait := channel.wait ++ [.Receiver continuation] }) with
              waiters := s.waiters + 1 })

/-- How `State::close` answers one who waits. -/
def closeWake : Waiter P K → Wake P K
  | .Sender continuation _ => ⟨continuation, .Bool false⟩
  | .Receiver continuation => ⟨continuation, .None⟩

/-- `State::close`. -/
def close (s : State P K) (handle : Handle) : Transition P K × State P K :=
  match s.channelAt handle with
  | none => (.ready .Unit, s)
  | some channel =>
    if channel.closed then (.ready .Unit, s)
    else
      let senders := channel.wait.countP Waiter.isSender
      let s := { s.setChannel handle.index (some { channel with closed := true, wait := [] }) with
        payloads := s.payloads - senders, waiters := s.waiters - channel.wait.length }
      (⟨.Ready .Unit, channel.wait.map closeWake⟩,
        if channel.buffer.isEmpty then s.release handle.index else s)

end State

/-! ## 2. Runs -/

/-- One call into the table. -/
inductive Op (P K : Type) where
  | open (room : Nat)
  | send (handle : Handle) (payload : P) (continuation : K)
  | recv (handle : Handle) (continuation : K)
  | close (handle : Handle)
  deriving Repr, DecidableEq

/-- What a call gives back. -/
inductive Reply (P K : Type) where
  | handle (handle : Handle)
  | transition (transition : Transition P K)
  deriving Repr, DecidableEq

/-- Perform one call. -/
def State.step (s : State P K) : Op P K → Except KernelError (Reply P K) × State P K
  | .open room => let (r, s) := s.open room; (r.map .handle, s)
  | .send handle payload continuation =>
    let (r, s) := s.send handle payload continuation; (r.map .transition, s)
  | .recv handle continuation => let (r, s) := s.recv handle continuation; (r.map .transition, s)
  | .close handle => let (t, s) := s.close handle; (.ok (.transition t), s)

/-- A call of a run, with the state it found and what it gave back. -/
structure Entry (P K : Type) where
  before : State P K
  op : Op P K
  reply : Except KernelError (Reply P K)

/-- The state a call leaves. -/
def Entry.after (e : Entry P K) : State P K := (e.before.step e.op).2

/-- The calls of a run from the default state, and the state at its end. -/
def trace (ops : List (Op P K)) : List (Entry P K) × State P K :=
  ops.foldl (fun (es, s) op => (es ++ [⟨s, op, (s.step op).1⟩], (s.step op).2)) ([], .default)

theorem trace_concat (ops : List (Op P K)) (op : Op P K) :
    trace (ops ++ [op]) =
      ((trace ops).1 ++ [⟨(trace ops).2, op, ((trace ops).2.step op).1⟩],
        ((trace ops).2.step op).2) := by
  simp [trace, List.foldl_append]

end Channels

end TeamyBend.Runtime
