/-
# Channels never look at what passes through them

Renaming the payloads and the continuations of a run renames its answers and changes nothing
else (`trace_map`).  So a run may be repeated with every payload and continuation numbered by
its call: the numbers tell equal payloads apart, and dropping them gives the original run back
(`trace_tagged`).
-/
import TeamyBend.Runtime.Channels

namespace TeamyBend.Runtime.Channels

variable {P K P' K' : Type}

/-! ## 1. Renaming -/

section Map

variable (f : P → P') (g : K → K')

/-- Rename the payload of an answer. -/
def Answer.map : Answer P → Answer P'
  | Bool b => Bool b
  | Some payload => Some (f payload)
  | None => None
  | Unit => Unit

/-- Rename the payload of an outcome. -/
def Outcome.map : Outcome P → Outcome P'
  | Ready answer => Ready (answer.map f)
  | Parked => Parked

/-- Rename a wake. -/
def Wake.map (w : Wake P K) : Wake P' K' := ⟨g w.continuation, w.answer.map f⟩

/-- Rename a transition. -/
def Transition.map (t : Transition P K) : Transition P' K' :=
  ⟨t.outcome.map f, t.wakes.map (Wake.map f g)⟩

/-- Rename a reply. -/
def Reply.map : Reply P K → Reply P' K'
  | handle h => handle h
  | transition t => transition (t.map f g)

/-- Rename a waiting party. -/
def Waiter.map : Waiter P K → Waiter P' K'
  | Sender continuation payload => Sender (g continuation) (f payload)
  | Receiver continuation => Receiver (g continuation)

/-- Rename a channel. -/
def Channel.map (c : Channel P K) : Channel P' K' :=
  ⟨c.room, c.closed, c.buffer.map f, c.wait.map (Waiter.map f g)⟩

/-- Rename a row. -/
def Row.map (r : Row P K) : Row P' K' := ⟨r.generation, r.channel.map (Channel.map f g)⟩

/-- Rename a table. -/
def State.map (s : State P K) : State P' K' :=
  ⟨s.rows.map (Row.map f g), s.free, s.payloads, s.waiters⟩

/-- Rename a call. -/
def Op.map : Op P K → Op P' K'
  | .open room => .open room
  | .send handle payload continuation => .send handle (f payload) (g continuation)
  | .recv handle continuation => .recv handle (g continuation)
  | .close handle => .close handle

/-- Rename an entry. -/
def Entry.map (e : Entry P K) : Entry P' K' :=
  ⟨e.before.map f g, e.op.map f g, e.reply.map (Reply.map f g)⟩

end Map

/-! ## 2. The operations commute with renaming -/

section Commute

variable (f : P → P') (g : K → K')

theorem Channel.hasReceiver_map (c : Channel P K) :
    (c.map f g).hasReceiver = c.hasReceiver := by
  rcases c with ⟨room, closed, buffer, _ | ⟨_ | _, wait⟩⟩ <;> rfl

theorem Channel.hasSender_map (c : Channel P K) : (c.map f g).hasSender = c.hasSender := by
  rcases c with ⟨room, closed, buffer, _ | ⟨_ | _, wait⟩⟩ <;> rfl

theorem State.channelAt_map (s : State P K) (handle : Handle) :
    (s.map f g).channelAt handle = (s.channelAt handle).map (Channel.map f g) := by
  simp only [channelAt, State.map, List.getElem?_map]
  cases s.rows[handle.index]? with
  | none => rfl
  | some row =>
    simp only [Option.map_some, Row.map]
    split <;> rfl

theorem State.setChannel_map (s : State P K) (index : Nat) (channel : Option (Channel P K)) :
    (s.map f g).setChannel index (channel.map (Channel.map f g)) =
      (s.setChannel index channel).map f g := by
  have hrows : ∀ (rows : List (Row P K)) (index : Nat),
      (rows.map (Row.map f g)).modify index
          (fun row => { row with channel := channel.map (Channel.map f g) }) =
        (rows.modify index fun row => { row with channel }).map (Row.map f g) := by
    intro rows
    induction rows with
    | nil => intro index; cases index <;> rfl
    | cons row rows ih =>
      intro index
      cases index with
      | zero => rfl
      | succ index => simpa using ih index
  simp only [setChannel, State.map, hrows]

theorem State.release_map (s : State P K) (index : Nat) :
    (s.map f g).release index = (s.release index).map f g := by
  have hset := State.setChannel_map f g s index none
  rw [Option.map_none] at hset
  simp only [release, hset]
  simp only [State.map, List.getElem?_map]
  cases s.rows[index]? with
  | none => rfl
  | some row =>
    simp only [Option.map_some, Row.map]
    split <;> rfl

theorem State.openAt_map (s : State P K) (index room : Nat) :
    (s.map f g).openAt index room =
      ((s.openAt index room).1, (s.openAt index room).2.map f g) := by
  simp only [openAt, State.map, List.getElem?_map]
  cases s.rows[index]? with
  | none => rfl
  | some row =>
    simp only [Option.map_some, Row.map]
    split
    · rfl
    · simp [Row.map, Channel.map]

theorem State.open_map (s : State P K) (room : Nat) :
    (s.map f g).open room = ((s.open room).1, (s.open room).2.map f g) := by
  have hfree : (s.map f g).free = s.free := rfl
  simp only [State.open, hfree]
  cases s.free.getLast? with
  | some index => exact State.openAt_map f g { s with free := s.free.dropLast } index room
  | none =>
    have hlen : (s.map f g).rows.length = s.rows.length := List.length_map ..
    simp only [hlen]
    split
    · rfl
    · rw [← State.openAt_map]
      simp [State.map, Row.map]

theorem State.releaseIfDone_map (s : State P K) (index : Nat) (channel : Channel P K) :
    (s.map f g).releaseIfDone index (channel.map f g) =
      (s.releaseIfDone index channel).map f g := by
  have hempty : (channel.map f g).buffer.isEmpty = channel.buffer.isEmpty := by
    simp [Channel.map]
  have hclosed : (channel.map f g).closed = channel.closed := rfl
  simp only [releaseIfDone, hempty, hclosed, State.release_map]
  split <;> rfl

/-- Replacing a channel and the two counts commutes with renaming. -/
theorem State.update_map (s : State P K) (index payloads waiters : Nat) (channel : Channel P K) :
    { (s.map f g).setChannel index (some (channel.map f g)) with payloads, waiters } =
      State.map f g { s.setChannel index (some channel) with payloads, waiters } := by
  have hset := State.setChannel_map f g s index (some channel)
  rw [Option.map_some] at hset
  rw [hset]
  rfl

theorem State.send_map (s : State P K) (handle : Handle) (payload : P) (continuation : K) :
    (s.map f g).send handle (f payload) (g continuation) =
      ((s.send handle payload continuation).1.map (Transition.map f g),
        (s.send handle payload continuation).2.map f g) := by
  have hp : (s.map f g).payloads = s.payloads := rfl
  have hw : (s.map f g).waiters = s.waiters := rfl
  have hupdate := State.update_map f g s handle.index
  simp only [send, State.channelAt_map, hp, hw]
  rcases s.channelAt handle with _ | ⟨room, closed, buffer, wait⟩
  · rfl
  simp only [Option.map_some, Channel.hasReceiver_map]
  rcases closed with _ | _
  · rcases wait with _ | ⟨_ | _, wait⟩
    -- nobody waits, a sender waits first, or a receiver does
    · have hbuffered := hupdate (s.payloads + 1) s.waiters ⟨room, false, buffer ++ [payload], []⟩
      have hparked := hupdate (s.payloads + 1) (s.waiters + 1)
        ⟨room, false, buffer, [.Sender continuation payload]⟩
      simp only [Channel.map, List.map_append, List.map_cons, List.map_nil, Waiter.map]
        at hbuffered hparked
      simp only [Channel.map, List.map_nil, List.length_map]
      split_ifs <;> first | rfl | exact Prod.ext rfl hbuffered | exact Prod.ext rfl hparked
    · rename_i first waiting
      have hbuffered := hupdate (s.payloads + 1) s.waiters
        ⟨room, false, buffer ++ [payload], .Sender first waiting :: wait⟩
      have hparked := hupdate (s.payloads + 1) (s.waiters + 1)
        ⟨room, false, buffer, .Sender first waiting :: wait ++ [.Sender continuation payload]⟩
      simp only [Channel.map, List.map_append, List.map_cons, List.map_nil, Waiter.map]
        at hbuffered hparked
      simp only [Channel.map, List.map_cons, Waiter.map, List.length_map]
      split_ifs <;> first | rfl | exact Prod.ext rfl hbuffered | exact Prod.ext rfl hparked
    · exact Prod.ext rfl (hupdate s.payloads (s.waiters - 1) ⟨room, false, buffer, wait⟩)
  · rfl

theorem State.recv_map (s : State P K) (handle : Handle) (continuation : K) :
    (s.map f g).recv handle (g continuation) =
      ((s.recv handle continuation).1.map (Transition.map f g),
        (s.recv handle continuation).2.map f g) := by
  have hp : (s.map f g).payloads = s.payloads := rfl
  have hw : (s.map f g).waiters = s.waiters := rfl
  have hupdate := State.update_map f g s handle.index
  simp only [recv, State.channelAt_map, hp, hw]
  rcases s.channelAt handle with _ | ⟨room, closed, buffer, wait⟩
  · rfl
  simp only [Option.map_some, Channel.hasSender_map]
  rcases buffer with _ | ⟨payload, buffer⟩
  · -- nothing is buffered: the first waiting party decides
    rcases wait with _ | ⟨_ | _, wait⟩
    · have hparked := hupdate s.payloads (s.waiters + 1)
        ⟨room, closed, [], [.Receiver continuation]⟩
      simp only [Channel.map, List.map_cons, List.map_nil, Waiter.map] at hparked
      simp only [Channel.map, List.map_nil, List.isEmpty_nil]
      split_ifs <;>
        first
          | rfl
          | exact Prod.ext rfl (State.release_map f g s handle.index)
          | exact Prod.ext rfl hparked
    · rename_i sender waiting
      exact Prod.ext rfl (hupdate (s.payloads - 1) (s.waiters - 1) ⟨room, closed, [], wait⟩)
    · rename_i receiver
      have hparked := hupdate s.payloads (s.waiters + 1)
        ⟨room, closed, [], .Receiver receiver :: wait ++ [.Receiver continuation]⟩
      simp only [Channel.map, List.map_append, List.map_cons, List.map_nil, Waiter.map] at hparked
      simp only [Channel.map, List.map_nil, List.map_cons, Waiter.map,
        List.isEmpty_nil]
      split_ifs <;>
        first
          | rfl
          | exact Prod.ext rfl (State.release_map f g s handle.index)
          | exact Prod.ext rfl hparked
  · rcases wait with _ | ⟨_ | _, wait⟩
    · have hset := hupdate (s.payloads - 1) s.waiters ⟨room, closed, buffer, []⟩
      have hdone := State.releaseIfDone_map f g
        { s.setChannel handle.index (some ⟨room, closed, buffer, []⟩) with
          payloads := s.payloads - 1 } handle.index ⟨room, closed, buffer, []⟩
      have hsame :=
        congrArg (State.releaseIfDone · handle.index ⟨room, closed, buffer.map f, []⟩) hset
      exact Prod.ext rfl (hsame.trans hdone)
    · rename_i sender waiting
      have hset := hupdate (s.payloads - 1) (s.waiters - 1)
        ⟨room, closed, buffer ++ [waiting], wait⟩
      have hdone := State.releaseIfDone_map f g
        { s.setChannel handle.index (some ⟨room, closed, buffer ++ [waiting], wait⟩) with
          payloads := s.payloads - 1, waiters := s.waiters - 1 } handle.index
        ⟨room, closed, buffer ++ [waiting], wait⟩
      simp only [Channel.map, List.map_append, List.map_cons, List.map_nil] at hset hdone
      have hsame := congrArg
        (State.releaseIfDone · handle.index
          ⟨room, closed, buffer.map f ++ [f waiting], wait.map (Waiter.map f g)⟩) hset
      exact Prod.ext rfl (hsame.trans hdone)
    · exact Prod.ext rfl (hupdate (s.payloads - 1) s.waiters ⟨room, closed, buffer, wait⟩)

theorem State.close_map (s : State P K) (handle : Handle) :
    (s.map f g).close handle =
      ((s.close handle).1.map f g, (s.close handle).2.map f g) := by
  have hp : (s.map f g).payloads = s.payloads := rfl
  have hw : (s.map f g).waiters = s.waiters := rfl
  simp only [close, State.channelAt_map, hp, hw]
  rcases s.channelAt handle with _ | ⟨room, closed, buffer, wait⟩
  · rfl
  simp only [Option.map_some, Channel.map]
  rcases closed with _ | _
  · have hwakes : (wait.map (Waiter.map f g)).map closeWake =
        (wait.map closeWake).map (Wake.map f g) := by
      simp only [List.map_map]
      refine List.map_congr_left fun w _ => ?_
      cases w <;> rfl
    have hcount : (wait.map (Waiter.map f g)).countP Waiter.isSender =
        wait.countP Waiter.isSender := by
      rw [List.countP_map]
      congr 1
      funext w
      cases w <;> rfl
    have hset := State.update_map f g s handle.index (s.payloads - wait.countP Waiter.isSender)
      (s.waiters - wait.length) ⟨room, true, buffer, []⟩
    simp only [Channel.map, List.map_nil] at hset
    have hrelease := congrArg (State.release · handle.index) hset
    simp only [State.release_map] at hrelease
    simp only [Bool.false_eq_true, if_false, hwakes, hcount, List.length_map, List.isEmpty_map]
    refine Prod.ext rfl ?_
    dsimp only
    split
    · exact hrelease
    · exact hset
  · rfl

theorem State.step_map (s : State P K) (op : Op P K) :
    (s.map f g).step (op.map f g) =
      ((s.step op).1.map (Reply.map f g), (s.step op).2.map f g) := by
  have hmap : ∀ {α β γ δ : Type} (r : Except KernelError α) (h : α → β) (k : β → γ)
      (h' : α → δ) (k' : δ → γ), (∀ a, k (h a) = k' (h' a)) →
        (r.map h).map k = (r.map h').map k' := by
    intro α β γ δ r h k h' k' heq
    cases r with
    | error e => rfl
    | ok a => exact congrArg Except.ok (heq a)
  cases op with
  | «open» room =>
    simp only [step, Op.map, State.open_map]
    refine Prod.ext ?_ rfl
    cases (s.open room).1 <;> rfl
  | send handle payload continuation =>
    simp only [step, Op.map, State.send_map]
    exact Prod.ext (hmap _ _ _ _ _ fun _ => rfl) rfl
  | recv handle continuation =>
    simp only [step, Op.map, State.recv_map]
    exact Prod.ext (hmap _ _ _ _ _ fun _ => rfl) rfl
  | close handle =>
    simp only [step, Op.map, State.close_map]
    rfl

/-- **Renaming a run renames what it gives back.** -/
theorem trace_map (ops : List (Op P K)) :
    trace (ops.map (Op.map f g)) =
      ((trace ops).1.map (Entry.map f g), (trace ops).2.map f g) := by
  induction ops using List.reverseRecOn with
  | nil => rfl
  | append_singleton ops op ih =>
    rw [List.map_append, List.map_singleton, trace_concat, trace_concat, ih]
    simp only [State.step_map, List.map_append, List.map_singleton, Entry.map]

end Commute

/-! ## 3. Numbering the calls of a run -/

/-- Mark the payload and the continuation of a call with the call's number. -/
def Op.tag (n : Nat) : Op P K → Op (Nat × P) (Nat × K) := Op.map (n, ·) (n, ·)

/-- Number the calls of a run. -/
def tagged (ops : List (Op P K)) : List (Op (Nat × P) (Nat × K)) := ops.mapIdx Op.tag

@[simp] theorem tagged_nil : tagged ([] : List (Op P K)) = [] := rfl

theorem tagged_concat (ops : List (Op P K)) (op : Op P K) :
    tagged (ops ++ [op]) = tagged ops ++ [op.tag ops.length] := by
  simp [tagged, List.mapIdx_concat]

@[simp] theorem length_tagged (ops : List (Op P K)) : (tagged ops).length = ops.length := by
  simp [tagged]

theorem Op.untag (n : Nat) (op : Op P K) : (op.tag n).map Prod.snd Prod.snd = op := by
  cases op <;> rfl

/-- **Dropping the numbers gives the run back.** -/
theorem trace_tagged (ops : List (Op P K)) :
    trace ops =
      ((trace (tagged ops)).1.map (Entry.map Prod.snd Prod.snd),
        (trace (tagged ops)).2.map Prod.snd Prod.snd) := by
  rw [← trace_map]
  congr 1
  induction ops using List.reverseRecOn with
  | nil => rfl
  | append_singleton ops op ih =>
    rw [tagged_concat, List.map_append, ← ih, List.map_singleton, Op.untag]

end TeamyBend.Runtime.Channels
