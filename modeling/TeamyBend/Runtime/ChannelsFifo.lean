/-
# Native channels are bounded first-in first-out queues

The table of `Channels` refines the channels of `Library.BoundedChannel`: forget how rows are
reused, name every payload and every waiting party by the number of its call, and each call is
one `Step` (`trace_refines`).  Two facts about the table carry the simulation: a free row is
vacant and can still take a generation (`Vacancies`), and a channel never keeps a waiting party
it could serve (`Channel.Settled`).

`channels_fifo` reads the invariant of the queue back at the table: who got which payload, in
which order, and what every caller was told.
-/
import TeamyBend.Runtime.ChannelsMap

namespace TeamyBend.Runtime.Channels

open BoundedChannel

variable {P K : Type}

/-! ## 1. What a run tells its callers -/

/-- The handle a call is about. -/
def Op.about : Op P K → Option Handle
  | .open _ => none
  | .send h _ _ | .recv h _ | .close h => some h

/-- The answers that call number `n` gave, each with the number of the call it answers. -/
def Entry.answers (n : Nat) (e : Entry (Nat × P) (Nat × K)) : List (Nat × Answer (Nat × P)) :=
  match e.reply with
  | .ok (.transition t) =>
    (match t.outcome with
      | .Ready a => [(n, a)]
      | .Parked => []) ++ t.wakes.map fun w => (w.continuation.1, w.answer)
  | _ => []

/-- The calls that call number `n` woke. -/
def Entry.woken (e : Entry (Nat × P) (Nat × K)) : List Nat :=
  match e.reply with
  | .ok (.transition t) => t.wakes.map (·.continuation.1)
  | _ => []

/-- Collect from the calls about one handle. -/
def collect {α : Type} (h : Handle) (get : Nat → Entry P K → List α) (es : List (Entry P K)) :
    List α :=
  (es.mapIdx fun n e => if e.op.about = some h then get n e else []).flatten

theorem collect_concat {α : Type} (h : Handle) (get : Nat → Entry P K → List α)
    (es : List (Entry P K)) (e : Entry P K) :
    collect h get (es ++ [e]) =
      collect h get es ++ if e.op.about = some h then get es.length e else [] := by
  simp [collect, List.mapIdx_concat]

/-- All answers about one handle, in the order they were given. -/
def answers (h : Handle) (es : List (Entry (Nat × P) (Nat × K))) :
    List (Nat × Answer (Nat × P)) := collect h Entry.answers es

/-- An answer that hands out a payload. -/
def delivered : Nat × Answer (Nat × P) → Option ((Nat × P) × Nat)
  | (j, .Some x) => some (x, j)
  | _ => none

/-- An answer to a send. -/
def verdict : Nat × Answer (Nat × P) → Option (Nat × Bool)
  | (i, .Bool b) => some (i, b)
  | _ => none

@[simp] theorem delivered_some (j : Nat) (x : Nat × P) : delivered (j, .Some x) = some (x, j) := rfl

@[simp] theorem delivered_bool (i : Nat) (b : Bool) :
    delivered ((i, .Bool b) : Nat × Answer (Nat × P)) = none := rfl

@[simp] theorem delivered_none (j : Nat) :
    delivered ((j, .None) : Nat × Answer (Nat × P)) = none := rfl

@[simp] theorem delivered_unit (j : Nat) :
    delivered ((j, .Unit) : Nat × Answer (Nat × P)) = none := rfl

@[simp] theorem verdict_bool (i : Nat) (b : Bool) :
    verdict ((i, .Bool b) : Nat × Answer (Nat × P)) = some (i, b) := rfl

@[simp] theorem verdict_some (j : Nat) (x : Nat × P) : verdict (j, .Some x) = none := rfl

@[simp] theorem verdict_none (j : Nat) :
    verdict ((j, .None) : Nat × Answer (Nat × P)) = none := rfl

@[simp] theorem verdict_unit (j : Nat) :
    verdict ((j, .Unit) : Nat × Answer (Nat × P)) = none := rfl

/-- The payloads handed out on one handle, in order, each with the receive that got it. -/
def deliveries (h : Handle) (es : List (Entry (Nat × P) (Nat × K))) : List ((Nat × P) × Nat) :=
  (answers h es).filterMap delivered

/-- The calls woken on one handle. -/
def woken (h : Handle) (es : List (Entry (Nat × P) (Nat × K))) : List Nat :=
  collect h (fun _ e => e.woken) es

/-- What a handle's channel has buffered. -/
def State.bufferOf (s : State P K) (h : Handle) : List P :=
  match s.channelAt h with
  | none => []
  | some c => c.buffer

/-! ## 2. The table as a table of bounded channels -/

/-- The waiting sends, by number. -/
def sendersOf : List (Waiter (Nat × P) (Nat × K)) → List Nat :=
  List.filterMap fun
    | .Sender _ payload => some payload.1
    | .Receiver _ => none

/-- The waiting receives, by number. -/
def receiversOf : List (Waiter (Nat × P) (Nat × K)) → List Nat :=
  List.filterMap fun
    | .Sender _ _ => none
    | .Receiver continuation => some continuation.1

/-- A channel with its payloads and waiting parties named by their calls. -/
def Channel.toChan (c : Channel (Nat × P) (Nat × K)) : Chan :=
  ⟨c.room, c.closed, c.buffer.map Prod.fst, sendersOf c.wait, receiversOf c.wait⟩

/-- A send that waits, from the number of its call. -/
def Waiter.sender (w : Nat × K × P) : Waiter (Nat × P) (Nat × K) :=
  .Sender (w.1, w.2.1) (w.1, w.2.2)

@[simp] theorem sendersOf_senders (ss : List (Nat × K × P)) :
    sendersOf (ss.map Waiter.sender) = ss.map Prod.fst := by
  simp only [sendersOf, List.filterMap_map]
  exact congrFun List.filterMap_eq_map ss

@[simp] theorem receiversOf_senders (ss : List (Nat × K × P)) :
    receiversOf (ss.map Waiter.sender) = [] := by
  simp [receiversOf, Waiter.sender, List.filterMap_map]

@[simp] theorem sendersOf_receivers (rs : List (Nat × K)) :
    sendersOf (rs.map Waiter.Receiver : List (Waiter (Nat × P) (Nat × K))) = [] := by
  simp [sendersOf, List.filterMap_map]

@[simp] theorem receiversOf_receivers (rs : List (Nat × K)) :
    receiversOf (rs.map Waiter.Receiver : List (Waiter (Nat × P) (Nat × K))) =
      rs.map Prod.fst := by
  simp only [receiversOf, List.filterMap_map]
  exact congrFun List.filterMap_eq_map rs

theorem State.closeWake_sender (w : Nat × K × P) :
    State.closeWake (Waiter.sender w) = ⟨(w.1, w.2.1), .Bool false⟩ := rfl

theorem State.closeWake_receiver (r : Nat × K) :
    State.closeWake (.Receiver r : Waiter (Nat × P) (Nat × K)) = ⟨r, .None⟩ := rfl

theorem Channel.toChan_receivers (room : Nat) (closed : Bool) (buffer : List (Nat × P))
    (rs : List (Nat × K)) :
    Channel.toChan ⟨room, closed, buffer, rs.map .Receiver⟩ =
      ⟨room, closed, buffer.map Prod.fst, [], rs.map Prod.fst⟩ := by
  simp [toChan]

theorem Channel.toChan_senders (room : Nat) (closed : Bool) (buffer : List (Nat × P))
    (ss : List (Nat × K × P)) :
    Channel.toChan ⟨room, closed, buffer, ss.map Waiter.sender⟩ =
      ⟨room, closed, buffer.map Prod.fst, ss.map Prod.fst, []⟩ := by
  simp [toChan]

theorem Channel.toChan_nobody (room : Nat) (closed : Bool) (buffer : List (Nat × P)) :
    (⟨room, closed, buffer, []⟩ : Channel (Nat × P) (Nat × K)).toChan =
      ⟨room, closed, buffer.map Prod.fst, [], []⟩ := rfl

/-- The channels behind the handles. -/
def State.table (s : State (Nat × P) (Nat × K)) : Table Handle := fun h =>
  (s.channelAt h).map Channel.toChan

/-- **A settled channel serves nobody by waiting.**  Receivers wait for an empty buffer, senders
for a full one, and a closed channel still has something to give. -/
inductive Channel.Settled : Channel (Nat × P) (Nat × K) → Prop where
  | receiving {room : Nat} (r : Nat × K) (rs : List (Nat × K)) :
      Settled ⟨room, false, [], (r :: rs).map .Receiver⟩
  | sending {room : Nat} {buffer : List (Nat × P)} (ss : List (Nat × K × P))
      (hroom : buffer.length ≤ room) (hfull : ss ≠ [] → buffer.length = room) :
      Settled ⟨room, false, buffer, ss.map Waiter.sender⟩
  | draining {room : Nat} {buffer : List (Nat × P)} (hne : buffer ≠ []) :
      Settled ⟨room, true, buffer, []⟩

/-- Nobody, or only receivers, wait for an empty buffer. -/
theorem Channel.Settled.receivers (room : Nat) (rs : List (Nat × K)) :
    (⟨room, false, [], rs.map .Receiver⟩ : Channel (Nat × P) (Nat × K)).Settled := by
  cases rs with
  | nil => exact .sending [] (Nat.zero_le room) fun h => absurd rfl h
  | cons r rs => exact .receiving r rs

/-- Free rows are vacant, can still take a generation, and are listed once. -/
structure State.Vacancies (s : State P K) : Prop where
  vacant : ∀ i ∈ s.free, ∃ g, s.rows[i]? = some ⟨g, none⟩ ∧ g < u32Max
  nodup : s.free.Nodup

/-- The invariant of the table. -/
structure State.Ok (s : State (Nat × P) (Nat × K)) : Prop extends s.Vacancies where
  settled : ∀ h c, s.channelAt h = some c → c.Settled

theorem State.ok_default : (State.default : State (Nat × P) (Nat × K)).Ok where
  vacant := by simp [State.default]
  nodup := List.nodup_nil
  settled := by simp [State.default, State.channelAt]

/-! ### Frame lemmas -/

section Frame

variable {s s' : State P K} {h : Handle} {c : Channel P K}

/-- A handle finds the channel of its row and its generation. -/
theorem State.channelAt_eq_some :
    s.channelAt h = some c ↔ s.rows[h.index]? = some ⟨h.generation, some c⟩ := by
  constructor
  · intro heq
    simp only [State.channelAt] at heq
    rcases hrow : s.rows[h.index]? with _ | ⟨generation, channel⟩
    · simp [hrow] at heq
    · simp only [hrow] at heq
      split at heq
      · rename_i hgen
        rw [← hgen, ← heq]
      · simp at heq
  · intro hrow
    simp [State.channelAt, hrow]

/-- Where the rows of a table come from another by replacing one channel, so do the channels. -/
theorem State.channelAt_replace {channel : Option (Channel P K)} (hat : s.channelAt h = some c)
    (hrows : s'.rows = (s.setChannel h.index channel).rows) (k : Handle) :
    s'.channelAt k = if k = h then channel else s.channelAt k := by
  have hrow := State.channelAt_eq_some.mp hat
  simp only [State.channelAt, hrows, State.setChannel, List.getElem?_modify]
  by_cases hindex : h.index = k.index
  · rw [hindex] at hrow
    simp only [hindex, if_true, hrow]
    by_cases hgen : h.generation = k.generation
    · have hk : k = h := by cases k; cases h; simp_all
      simp [hk]
    · have hk : k ≠ h := fun heq => hgen (by rw [heq])
      simp [hk, hgen]
  · have hk : k ≠ h := fun heq => hindex (by rw [heq])
    simp [hindex, hk]

/-- An occupied row is not free. -/
theorem State.Vacancies.not_mem (hs : s.Vacancies) (hat : s.channelAt h = some c) :
    h.index ∉ s.free := by
  intro hmem
  obtain ⟨g, hrow, -⟩ := hs.vacant _ hmem
  simp [State.channelAt_eq_some.mp hat] at hrow

/-- A channel that changes leaves the free rows as they are. -/
theorem State.Vacancies.replace {channel : Option (Channel P K)} (hs : s.Vacancies)
    (hat : s.channelAt h = some c) (hrows : s'.rows = (s.setChannel h.index channel).rows)
    (hfree : s'.free = s.free) : s'.Vacancies where
  nodup := hfree ▸ hs.nodup
  vacant := by
    intro i hi
    rw [hfree] at hi
    have hne : h.index ≠ i := by
      rintro rfl
      exact hs.not_mem hat hi
    simpa [hrows, State.setChannel, List.getElem?_modify, hne] using hs.vacant i hi

theorem State.rows_release (s : State P K) (index : Nat) :
    (s.release index).rows = (s.setChannel index none).rows := by
  simp only [State.release]
  rcases hrow : s.rows[index]? with _ | row
  · have hlen : s.rows.length ≤ index := List.getElem?_eq_none_iff.mp hrow
    simp [State.setChannel, List.modify_eq_self hlen]
  · dsimp only
    split <;> rfl

/-- Its row is free again, unless its generations are used up. -/
theorem State.Vacancies.release (hs : s.Vacancies) (hat : s.channelAt h = some c) :
    (s.release h.index).Vacancies := by
  have hrow := State.channelAt_eq_some.mp hat
  have hset : (s.setChannel h.index none).Vacancies := hs.replace hat rfl rfl
  simp only [State.release, hrow]
  split
  · rename_i hgen
    constructor
    · intro i hi
      rcases List.mem_append.mp hi with hi | hi
      · exact hset.vacant i hi
      · obtain rfl := List.mem_singleton.mp hi
        exact ⟨h.generation, by simp [State.setChannel, hrow], hgen⟩
    · rw [← List.concat_eq_append]
      exact hs.nodup.concat (hs.not_mem hat)
  · exact hset

end Frame

/-! ## 3. Each call is one step -/

/-- Add what call number `n` told the callers to a history. -/
def Entry.record (n : Nat) (e : Entry (Nat × P) (Nat × K)) (g : History) : History where
  deliveries := g.deliveries ++ ((e.answers n).filterMap delivered).map fun d => (d.1.1, d.2)
  answers := g.answers ++ (e.answers n).filterMap verdict
  woken := g.woken ++ e.woken
  parked := g.parked ++
    match e.reply with
    | .ok (.transition ⟨.Parked, _⟩) => [n]
    | _ => []
  sends := g.sends ++
    match e.op, e.reply with
    | .send _ _ _, .ok _ => [n]
    | _, _ => []
  recvs := g.recvs ++
    match e.op, e.reply with
    | .recv _ _, .ok _ => [n]
    | _, _ => []

/-- Label `l` says what call number `n` did. -/
structure Entry.Tells (n : Nat) (e : Entry (Nat × P) (Nat × K)) (l : Label Handle) : Prop where
  record : ∀ h g, (if l.on = some h then g.record n l else g) =
    if e.op.about = some h then e.record n g else g
  opened : ∀ h, e.reply = .ok (.handle h) → l = .opened h
  closed : ∀ h ss rs, l = .closed h ss rs → e.op = .close h

/-- Call number `n` takes the table one step. -/
def State.Moves (s : State (Nat × P) (Nat × K)) (n : Nat) (op : Op (Nat × P) (Nat × K))
    (r : Except KernelError (Reply (Nat × P) (Nat × K)))
    (s' : State (Nat × P) (Nat × K)) : Prop :=
  s'.Ok ∧ ∃ l, Step n s.table s'.table l ∧ Entry.Tells n ⟨s, op, r⟩ l

section Moves

variable {s s' : State (Nat × P) (Nat × K)} {n : Nat} {h : Handle}

/-- A step at `h` from what happens to its channel. -/
theorem State.step_at {channel : Option (Channel (Nat × P) (Nat × K))} {l : Label Handle}
    (hframe : ∀ k, s'.channelAt k = if k = h then channel else s.channelAt k)
    (hcall : ChanStep n h ((s.channelAt h).map Channel.toChan) l (channel.map Channel.toChan)) :
    Step n s.table s'.table l := by
  refine .call (h := h) ?_ fun k hk => ?_
  · simpa [State.table, hframe] using hcall
  · simp [State.table, hframe, hk]

/-- A call about `h` says what its label says when both add the same to every history. -/
theorem Entry.tells_call {op : Op (Nat × P) (Nat × K)} {t : Transition (Nat × P) (Nat × K)}
    {l : Label Handle} (habout : op.about = some h) (hon : l.on = some h)
    (hrecord : ∀ g : History, g.record n l = Entry.record n ⟨s, op, .ok (.transition t)⟩ g)
    (hclosed : ∀ k ss rs, l = .closed k ss rs → op = .close k) :
    Entry.Tells n ⟨s, op, .ok (.transition t)⟩ l where
  record := by
    intro k g
    simp only [hon, habout, hrecord]
  opened := by simp
  closed := hclosed

/-- A call that fails moves nothing. -/
theorem State.Ok.moves_refused (hs : s.Ok) (op : Op (Nat × P) (Nat × K)) (e : KernelError) :
    s.Moves n op (.error e) s := by
  have hrecord : ∀ g : History, Entry.record n ⟨s, op, .error e⟩ g = g := by
    intro g
    cases op <;> simp [Entry.record, Entry.answers, Entry.woken]
  refine ⟨hs, .refused, .refused fun _ => rfl, ?_, by simp, by simp⟩
  intro k g
  simp [Label.on, hrecord]

/-- A call that touches no channel but answers. -/
theorem State.Ok.moves_same {op : Op (Nat × P) (Nat × K)} {t : Transition (Nat × P) (Nat × K)}
    {l : Label Handle} (hs : s.Ok) (hcall : ChanStep n h (s.table h) l (s.table h))
    (htold : Entry.Tells n ⟨s, op, .ok (.transition t)⟩ l) :
    s.Moves n op (.ok (.transition t)) s :=
  ⟨hs, l, .call hcall fun _ _ => rfl, htold⟩

/-- A call that replaces the channel of `h`. -/
theorem State.Ok.moves_at {c : Channel (Nat × P) (Nat × K)}
    {channel : Option (Channel (Nat × P) (Nat × K))} {op : Op (Nat × P) (Nat × K)}
    {t : Transition (Nat × P) (Nat × K)} {l : Label Handle} (hs : s.Ok)
    (hat : s.channelAt h = some c) (hvacant : s'.Vacancies)
    (hrows : s'.rows = (s.setChannel h.index channel).rows)
    (hsettled : ∀ d, channel = some d → d.Settled)
    (hcall : ChanStep n h (some c.toChan) l (channel.map Channel.toChan))
    (htold : Entry.Tells n ⟨s, op, .ok (.transition t)⟩ l) :
    s.Moves n op (.ok (.transition t)) s' := by
  have hframe := State.channelAt_replace hat hrows
  refine ⟨{ hvacant with settled := ?_ }, l, State.step_at hframe ?_, htold⟩
  · intro k d hd
    rw [hframe] at hd
    split at hd
    · exact hsettled d hd
    · exact hs.settled k d hd
  · rw [hat]
    exact hcall

/-- A call that puts another channel behind `h`. -/
theorem State.Ok.moves_replace {c d : Channel (Nat × P) (Nat × K)}
    {op : Op (Nat × P) (Nat × K)} {t : Transition (Nat × P) (Nat × K)} {l : Label Handle}
    (payloads waiters : Nat) (hs : s.Ok) (hat : s.channelAt h = some c) (hd : d.Settled)
    (hcall : ChanStep n h (some c.toChan) l (some d.toChan))
    (htold : Entry.Tells n ⟨s, op, .ok (.transition t)⟩ l) :
    s.Moves n op (.ok (.transition t))
      { s.setChannel h.index (some d) with payloads, waiters } := by
  refine hs.moves_at hat (hs.replace hat rfl rfl) rfl ?_ hcall htold
  rintro _ ⟨⟩
  exact hd

/-- The last change of a row counts. -/
theorem State.rows_modify_twice (s : State P K) (index payloads waiters : Nat)
    (channel channel' : Option (Channel P K)) :
    ({ s.setChannel index channel with payloads, waiters }.setChannel index channel').rows =
      (s.setChannel index channel').rows := by
  simp only [State.setChannel]
  apply List.ext_getElem?
  intro i
  simp only [List.getElem?_modify]
  by_cases hi : index = i
  · cases s.rows[i]? <;> simp [hi]
  · simp [hi]

/-- A call that puts another channel behind `h` and releases it when it is closed and empty. -/
theorem State.Ok.moves_retire {c d : Channel (Nat × P) (Nat × K)}
    {op : Op (Nat × P) (Nat × K)} {t : Transition (Nat × P) (Nat × K)} {l : Label Handle}
    (payloads waiters : Nat) (hs : s.Ok) (hat : s.channelAt h = some c)
    (hd : ¬(d.closed = true ∧ d.buffer = []) → d.Settled)
    (hcall : ChanStep n h (some c.toChan) l (retire d.toChan))
    (htold : Entry.Tells n ⟨s, op, .ok (.transition t)⟩ l) :
    s.Moves n op (.ok (.transition t))
      ({ s.setChannel h.index (some d) with payloads, waiters }.releaseIfDone h.index d) := by
  simp only [State.releaseIfDone, Bool.and_eq_true, List.isEmpty_iff]
  by_cases hdone : d.closed = true ∧ d.buffer = []
  · have hset : State.channelAt { s.setChannel h.index (some d) with payloads, waiters } h =
        some d :=
      (State.channelAt_replace hat rfl h).trans (if_pos rfl)
    have hreplaced : State.Vacancies { s.setChannel h.index (some d) with payloads, waiters } :=
      hs.replace hat rfl rfl
    have hrows := (State.rows_release _ h.index).trans
      (s.rows_modify_twice h.index payloads waiters (some d) none)
    rw [if_pos hdone]
    refine hs.moves_at hat (hreplaced.release hset) hrows (by simp) ?_ htold
    · have hempty : d.toChan.closed = true ∧ d.toChan.buffer = [] := by
        simpa [Channel.toChan] using hdone
      rwa [retire, if_pos hempty] at hcall
  · rw [if_neg hdone]
    refine hs.moves_replace payloads waiters hat (hd hdone) ?_ htold
    have hfull : ¬(d.toChan.closed = true ∧ d.toChan.buffer = []) := by
      simpa [Channel.toChan] using hdone
    rwa [retire, if_neg hfull] at hcall

/-! ### One lemma for each operation -/

/-- **A send** is a step of the channel. -/
theorem State.Ok.send_moves (hs : s.Ok) (n : Nat) (h : Handle) (payload : P)
    (continuation : K) :
    s.Moves n (.send h (n, payload) (n, continuation))
      ((s.send h (n, payload) (n, continuation)).1.map .transition)
      (s.send h (n, payload) (n, continuation)).2 := by
  rcases hat : s.channelAt h with _ | c
  · simp only [State.send, hat]
    refine hs.moves_same (h := h) (.rejected (by simp [State.table, hat]))
      (Entry.tells_call rfl rfl (fun g => ?_) (by simp))
    simp [Entry.record, Entry.answers, Entry.woken, History.record, Transition.ready]
  cases hs.settled h c hat with
  | draining hne =>
    simp only [State.send, hat]
    refine hs.moves_same (h := h) (.rejected (by simp [State.table, hat, Channel.toChan]))
      (Entry.tells_call rfl rfl (fun g => ?_) (by simp))
    simp [Entry.record, Entry.answers, Entry.woken, History.record, Transition.ready]
  | @receiving room r rs =>
    simp only [State.send, hat, List.map_cons, Channel.hasReceiver, List.head?_cons, Bool.not_true,
      Bool.false_and, Bool.false_eq_true, if_false, if_true]
    refine hs.moves_replace s.payloads (s.waiters - 1) hat (.receivers room rs) ?_
      (Entry.tells_call (l := .handed h r.1) rfl rfl (fun g => ?_) (by simp))
    · rw [Channel.toChan_receivers, Channel.toChan_receivers]
      exact .handed
    · simp [Entry.record, Entry.answers, Entry.woken, History.record, Transition.waking,
        List.filterMap_cons]
  | @sending room buffer ss hroom hfull =>
    have hnone : Channel.hasReceiver ⟨room, false, buffer, ss.map Waiter.sender⟩ = false := by
      cases ss <;> rfl
    simp only [State.send, hat, hnone, Bool.not_false, Bool.true_and, Bool.false_eq_true, if_false]
    split_ifs with hpayloads hwaiters hbuffer
    · exact hs.moves_refused _ _
    · exact hs.moves_refused _ _
    · have hlt : buffer.length < room := by simpa using hbuffer
      have hss : ss = [] := by
        by_contra hne
        exact Nat.ne_of_lt hlt (hfull hne)
      subst hss
      refine hs.moves_replace (s.payloads + 1) s.waiters hat
        (.sending [] (by simpa [Nat.succ_le_iff] using hlt) fun h => absurd rfl h) ?_
        (Entry.tells_call (l := .buffered h) rfl rfl (fun g => ?_) (by simp))
      · rw [List.map_nil, Channel.toChan_nobody, Channel.toChan_nobody, List.map_append]
        exact .buffered (by simpa using hlt)
      · simp [Entry.record, Entry.answers, Entry.woken, History.record, Transition.ready]
    · have heq : buffer.length = room := by
        have : ¬buffer.length < room := by simpa using hbuffer
        omega
      have hwait : ss.map Waiter.sender ++ [Waiter.Sender (n, continuation) (n, payload)] =
          (ss ++ [(n, continuation, payload)]).map Waiter.sender := by
        simp [Waiter.sender]
      rw [hwait]
      refine hs.moves_replace (s.payloads + 1) (s.waiters + 1) hat
        (.sending _ hroom fun _ => heq) ?_
        (Entry.tells_call (l := .sendParked h) rfl rfl (fun g => ?_) (by simp))
      · rw [Channel.toChan_senders, Channel.toChan_senders, List.map_append]
        exact .sendParked (by simpa using heq)
      · simp [Entry.record, Entry.answers, Entry.woken, History.record, Transition.parked]

/-- **A receive** is one. -/
theorem State.Ok.recv_moves (hs : s.Ok) (n : Nat) (h : Handle) (continuation : K) :
    s.Moves n (.recv h (n, continuation)) ((s.recv h (n, continuation)).1.map .transition)
      (s.recv h (n, continuation)).2 := by
  rcases hat : s.channelAt h with _ | c
  · simp only [State.recv, hat]
    refine hs.moves_same (h := h) (l := .drained h) ?_
      (Entry.tells_call rfl rfl (fun g => ?_) (by simp))
    · rw [State.table, hat]
      exact .stale
    · simp [Entry.record, Entry.answers, Entry.woken, History.record, Transition.ready]
  cases hs.settled h c hat with
  | @draining room buffer hne =>
    obtain ⟨payload, buffer, rfl⟩ := List.exists_cons_of_ne_nil hne
    simp only [State.recv, hat, List.isEmpty_cons, Bool.false_and, Bool.false_eq_true, if_false]
    refine hs.moves_retire (s.payloads - 1) s.waiters hat (fun hmore => .draining fun hnil => ?_) ?_
      (Entry.tells_call (l := .took h payload.1 none) rfl rfl (fun g => ?_) (by simp))
    · exact hmore ⟨rfl, hnil⟩
    · exact .took
    · simp [Entry.record, Entry.answers, Entry.woken, History.record, Transition.ready]
  | @receiving room r rs =>
    simp only [State.recv, hat, List.isEmpty_nil, Channel.hasSender, List.map_cons,
      List.head?_cons, Bool.not_false, Bool.true_and, Bool.false_eq_true, if_false]
    split_ifs
    · exact hs.moves_refused _ _
    · have hwait : Waiter.Receiver r :: rs.map Waiter.Receiver ++
            [Waiter.Receiver (n, continuation)] =
          (((r :: rs) ++ [(n, continuation)]).map .Receiver :
            List (Waiter (Nat × P) (Nat × K))) := by
        simp
      rw [hwait]
      refine hs.moves_replace s.payloads (s.waiters + 1) hat (.receivers room _) ?_
        (Entry.tells_call (l := .recvParked h) rfl rfl (fun g => ?_) (by simp))
      · rw [Channel.toChan_receivers, Channel.toChan_receivers, List.map_append]
        exact .recvParked
      · simp [Entry.record, Entry.answers, Entry.woken, History.record, Transition.parked]
  | @sending room buffer ss hroom hfull =>
    rcases buffer with _ | ⟨payload, buffer⟩
    · rcases ss with _ | ⟨⟨i, k, p⟩, ss⟩
      · -- nothing to receive, and nobody waits
        simp only [State.recv, hat, List.isEmpty_nil, Channel.hasSender, List.map_nil,
          List.head?_nil, Bool.not_false, Bool.true_and, Bool.false_eq_true, if_false]
        split_ifs
        · exact hs.moves_refused _ _
        · refine hs.moves_replace s.payloads (s.waiters + 1) hat
            (.receiving (n, continuation) []) ?_
            (Entry.tells_call (l := .recvParked h) rfl rfl (fun g => ?_) (by simp))
          · exact .recvParked
          · simp [Entry.record, Entry.answers, Entry.woken, History.record, Transition.parked]
      · -- a channel without room hands over what a sender waits with
        have hzero : room = 0 := (hfull (by simp)).symm
        subst hzero
        simp only [State.recv, hat, List.isEmpty_nil, Channel.hasSender, List.map_cons,
          Waiter.sender, List.head?_cons, Bool.not_true, Bool.and_false, Bool.false_and,
          Bool.false_eq_true, if_false, if_true]
        refine hs.moves_replace (s.payloads - 1) (s.waiters - 1) hat
          (.sending ss (Nat.le_refl 0) fun _ => rfl) ?_
          (Entry.tells_call (l := .took h i (some i)) rfl rfl (fun g => ?_) (by simp))
        · rw [Channel.toChan_senders, Channel.toChan_senders]
          exact .direct
        · simp [Entry.record, Entry.answers, Entry.woken, History.record, Transition.waking,
        List.filterMap_cons]
    · rcases ss with _ | ⟨⟨i, k, p⟩, ss⟩
      · simp only [State.recv, hat, List.isEmpty_cons, List.map_nil, Bool.false_and,
          Bool.false_eq_true, if_false]
        refine hs.moves_retire (s.payloads - 1) s.waiters hat (fun _ => ?_) ?_
          (Entry.tells_call (l := .took h payload.1 none) rfl rfl (fun g => ?_) (by simp))
        · exact .sending [] (Nat.le_of_succ_le hroom) fun h => absurd rfl h
        · exact .took
        · simp [Entry.record, Entry.answers, Entry.woken, History.record, Transition.ready]
      · -- the first waiting payload takes the place of the one that leaves
        simp only [State.recv, hat, List.isEmpty_cons, List.map_cons, Waiter.sender,
          Bool.false_and, Bool.false_eq_true, if_false]
        have hlength : (buffer ++ [(i, p)]).length = room := by
          simpa using hfull (by simp)
        refine hs.moves_retire (s.payloads - 1) (s.waiters - 1) hat
          (fun _ => .sending ss (Nat.le_of_eq hlength) fun _ => hlength) ?_
          (Entry.tells_call (l := .took h payload.1 (some i)) rfl rfl (fun g => ?_) (by simp))
        · have hopen :
              retire ⟨room, false, (buffer ++ [(i, p)]).map Prod.fst, ss.map Prod.fst, []⟩ =
              some ⟨room, false, (buffer ++ [(i, p)]).map Prod.fst, ss.map Prod.fst, []⟩ :=
            if_neg (by simp)
          rw [Channel.toChan_senders, Channel.toChan_senders, hopen, List.map_append]
          exact .refilled
        · simp [Entry.record, Entry.answers, Entry.woken, History.record, List.filterMap_cons]

/-- **A close** is one. -/
theorem State.Ok.close_moves (hs : s.Ok) (n : Nat) (h : Handle) :
    s.Moves n (.close h) (.ok (.transition (s.close h).1)) (s.close h).2 := by
  have hidle : ∀ c : Option Chan, (∀ d, c = some d → d.closed = true) → s.table h = c →
      s.Moves n (.close h) (.ok (.transition (.ready .Unit))) s := by
    intro c hc htable
    refine hs.moves_same (h := h) (l := .closed h [] []) (.closedAgain (htable ▸ hc))
      (Entry.tells_call rfl rfl (fun g => ?_) (by simp +contextual))
    simp [Entry.record, Entry.answers, Entry.woken, History.record, Transition.ready]
  rcases hat : s.channelAt h with _ | c
  · simp only [State.close, hat]
    exact hidle none (by simp) (by simp [State.table, hat])
  have hopen : ∀ room buffer (wait : List (Waiter (Nat × P) (Nat × K))),
      c = ⟨room, false, buffer, wait⟩ →
      (wait.map State.closeWake).filterMap (fun w => verdict (w.continuation.1, w.answer)) =
        (sendersOf wait).map (·, false) →
      (wait.map State.closeWake).filterMap (fun w => delivered (w.continuation.1, w.answer)) = [] →
      (wait.map State.closeWake).map (·.continuation.1) = sendersOf wait ++ receiversOf wait →
      s.Moves n (.close h) (.ok (.transition (s.close h).1)) (s.close h).2 := by
    rintro room buffer wait rfl hverdicts hdelivered hwoken
    have hmoves : s.Moves n (.close h)
        (.ok (.transition ⟨.Ready .Unit, wait.map State.closeWake⟩)) _ :=
      hs.moves_retire (d := ⟨room, true, buffer, []⟩)
      (l := .closed h (sendersOf wait) (receiversOf wait))
      (s.payloads - wait.countP Waiter.isSender) (s.waiters - wait.length) hat
      (fun hmore => .draining fun hnil => hmore ⟨rfl, hnil⟩) (.closed)
      (Entry.tells_call (n := n) rfl rfl (fun g => ?_) (by simp +contextual))
    · simpa [State.close, hat, State.releaseIfDone] using hmoves
    · simp only [Entry.record, Entry.answers, Entry.woken, History.record, List.filterMap_append,
        List.filterMap_map, Function.comp_def] at *
      simp [hverdicts, hdelivered, hwoken]
  cases hs.settled h c hat with
  | @draining room buffer hne =>
    simp only [State.close, hat, if_true]
    exact hidle (some ⟨room, true, buffer.map Prod.fst, [], []⟩) (by simp)
      (by rw [State.table, hat]; rfl)
  | @receiving room r rs =>
    refine hopen _ _ _ rfl ?_ ?_ ?_ <;>
      simp only [List.map_map, List.filterMap_map, sendersOf_receivers, receiversOf_receivers,
        Function.comp_def, State.closeWake_receiver, verdict_none, delivered_none,
        List.filterMap_none, List.map_nil, List.nil_append]
  | @sending room buffer ss hroom hfull =>
    refine hopen _ _ _ rfl ?_ ?_ ?_ <;>
      simp only [List.map_map, List.filterMap_map, sendersOf_senders, receiversOf_senders,
        Function.comp_def, State.closeWake_sender, verdict_bool, delivered_bool,
        List.filterMap_none, List.filterMap_eq_map', List.append_nil]

/-- Opening at a vacant row that is not free (any more). -/
theorem State.Ok.openAt_moves (hs : s.Ok) (n room : Nat) {index g : Nat}
    (hvacant : s'.Vacancies) (hframe : ∀ k, s'.channelAt k = s.channelAt k)
    (hrow : s'.rows[index]? = some ⟨g, none⟩) (hg : g < u32Max) (hfree : index ∉ s'.free) :
    s.Moves n (.open room) ((s'.openAt index room).1.map .handle) (s'.openAt index room).2 := by
  simp only [State.openAt, hrow, Nat.ne_of_lt hg, if_false]
  have hlt : index < s'.rows.length := (List.getElem?_eq_some_iff.mp hrow).1
  have hnew : ∀ k, State.channelAt
      { s' with rows := s'.rows.set index ⟨g + 1, some ⟨room, false, [], []⟩⟩ } k =
        if k = ⟨index, g + 1⟩ then some ⟨room, false, [], []⟩ else s.channelAt k := by
    intro k
    rw [← hframe k]
    simp only [State.channelAt, List.getElem?_set, hlt, if_true]
    by_cases hindex : index = k.index
    · rw [hindex] at hrow
      by_cases hgen : g + 1 = k.generation
      · have hk : k = ⟨index, g + 1⟩ := by cases k; simp_all
        simp [hk]
      · have hk : k ≠ ⟨index, g + 1⟩ := fun heq => hgen (by rw [heq])
        rw [if_neg hk]
        simp [hindex, hgen, hrow]
    · have hk : k ≠ ⟨index, g + 1⟩ := fun heq => hindex (by rw [heq])
      simp [hindex, hk]
  refine ⟨⟨⟨?_, hvacant.nodup⟩, ?_⟩, .opened ⟨index, g + 1⟩, ?_, ?_, ?_, by simp⟩
  · intro i hi
    have hne : index ≠ i := by
      rintro rfl
      exact hfree hi
    simpa [List.getElem?_set, hne] using hvacant.vacant i hi
  · intro k c hc
    rw [hnew] at hc
    split at hc
    · obtain rfl := Option.some.inj hc
      exact .receivers room []
    · exact hs.settled k c hc
  · refine Step.opened ?_ (show State.table _ _ = some (⟨room, false, [], [], []⟩ : Chan) from ?_)
      fun k hk => ?_
    · have hnone : s'.channelAt ⟨index, g + 1⟩ = none := by simp [State.channelAt, hrow]
      simp [State.table, ← hframe, hnone]
    · simp [State.table, hnew, Channel.toChan, sendersOf, receiversOf]
    · simp [State.table, hnew, hk]
  · intro k g
    simp [Op.about, Label.on, History.record]
  · rintro k ⟨⟩
    rfl

/-- **A new channel** starts empty. -/
theorem State.Ok.open_moves (hs : s.Ok) (n room : Nat) :
    s.Moves n (.open room) ((s.open room).1.map .handle) (s.open room).2 := by
  simp only [State.open]
  rcases hlast : s.free.getLast? with _ | index
  · dsimp only
    split_ifs with hlimit
    · exact hs.moves_refused _ _
    · -- a fresh row at the end of the table
      have hold : ∀ i : Nat, (∃ row, s.rows[i]? = some row) →
          (s.rows ++ [(⟨0, none⟩ : Row (Nat × P) (Nat × K))])[i]? = s.rows[i]? := by
        rintro i ⟨row, hrow⟩
        exact List.getElem?_append_left (List.getElem?_eq_some_iff.mp hrow).1
      have hempty : s.free = [] := List.getLast?_eq_none_iff.mp hlast
      refine hs.openAt_moves n room (g := 0) ⟨?_, hs.nodup⟩ (fun k => ?_) (by simp) (by decide)
        (by simp [hempty])
      · simp [hempty]
      · simp only [State.channelAt]
        rcases hrow : s.rows[k.index]? with _ | row
        · have hlen := List.getElem?_eq_none_iff.mp hrow
          rw [List.getElem?_append_right hlen]
          rcases k.index - s.rows.length with _ | m <;> simp
        · rw [hold _ ⟨row, hrow⟩, hrow]
  · have hsplit : s.free = s.free.dropLast ++ [index] :=
      (List.dropLast_append_getLast? index hlast).symm
    have hnodup := hs.nodup
    rw [hsplit, List.nodup_append] at hnodup
    obtain ⟨g, hrow, hg⟩ := hs.vacant index (by rw [hsplit]; simp)
    refine hs.openAt_moves n room ⟨fun i hi => ?_, hnodup.1⟩ (fun _ => rfl) hrow hg ?_
    · exact hs.vacant i (List.dropLast_subset _ hi)
    · intro hmem
      exact hnodup.2.2 index hmem index (by simp) rfl

/-- **Every call is one step of the bounded channels**, and keeps the table's invariant. -/
theorem State.Ok.step_moves (hs : s.Ok) (n : Nat) (op : Op P K) :
    s.Moves n (op.tag n) (s.step (op.tag n)).1 (s.step (op.tag n)).2 := by
  cases op with
  | «open» room => exact hs.open_moves n room
  | send h payload continuation => exact hs.send_moves n h payload continuation
  | recv h continuation => exact hs.recv_moves n h continuation
  | close h => exact hs.close_moves n h

end Moves

/-! ## 4. Runs -/

/-- A log says, call by call, what a run did.  The log has the latest call first. -/
inductive Agree : List (Entry (Nat × P) (Nat × K)) → List (Label Handle) → Prop where
  | empty : Agree [] []
  | step {es : List (Entry (Nat × P) (Nat × K))} {log : List (Label Handle)}
      {e : Entry (Nat × P) (Nat × K)} {l : Label Handle} (hrun : Agree es log)
      (hstep : e.Tells es.length l) : Agree (es ++ [e]) (l :: log)

theorem Agree.length {es : List (Entry (Nat × P) (Nat × K))} {log : List (Label Handle)}
    (h : Agree es log) : log.length = es.length := by
  induction h with
  | empty => rfl
  | step _ _ ih => simp [ih]

theorem length_trace (ops : List (Op P K)) : (trace ops).1.length = ops.length := by
  induction ops using List.reverseRecOn with
  | nil => rfl
  | append_singleton ops op ih => simp [trace_concat, ih]

/-- **The table refines the bounded channels along every run.** -/
theorem trace_refines (ops : List (Op P K)) :
    (trace (tagged ops)).2.Ok ∧
      ∃ log, Run (trace (tagged ops)).2.table log ∧ Agree (trace (tagged ops)).1 log := by
  induction ops using List.reverseRecOn with
  | nil => exact ⟨State.ok_default, [], .empty, .empty⟩
  | append_singleton ops op ih =>
    obtain ⟨hok, log, hrun, hagree⟩ := ih
    have hlen : log.length = ops.length := by
      rw [hagree.length, length_trace, length_tagged]
    obtain ⟨hok', l, hstep, htold⟩ := hok.step_moves ops.length op
    rw [tagged_concat, trace_concat]
    refine ⟨hok', l :: log, .step hrun (hlen ▸ hstep), .step hagree ?_⟩
    rwa [← hagree.length, hlen]

/-! ### The calls of a run -/

theorem trace_op (ops : List (Op P K)) : (trace ops).1.map Entry.op = ops := by
  induction ops using List.reverseRecOn with
  | nil => rfl
  | append_singleton ops op ih => simp [trace_concat, ih]

theorem getElem?_tagged (ops : List (Op P K)) (n : Nat) :
    (tagged ops)[n]? = ops[n]?.map (Op.tag n) := by
  simp [tagged, List.getElem?_mapIdx]

/-- What the numbered call is, from the entry of its run. -/
theorem op_of_entry {ops : List (Op P K)} {n : Nat} {e : Entry (Nat × P) (Nat × K)}
    (he : (trace (tagged ops)).1[n]? = some e) : ∃ op, ops[n]? = some op ∧ e.op = op.tag n := by
  have hop : ((trace (tagged ops)).1.map Entry.op)[n]? = some e.op := by simp [he]
  rw [trace_op, getElem?_tagged] at hop
  obtain ⟨op, hop, heq⟩ := Option.map_eq_some_iff.mp hop
  exact ⟨op, hop, heq.symm⟩

/-- An entry is the last one of a shorter run. -/
theorem trace_take {ops : List (Op P K)} {n : Nat} {e : Entry P K}
    (he : (trace ops).1[n]? = some e) :
    (trace (ops.take n)).1 = (trace ops).1.take n ∧ (trace (ops.take n)).2 = e.before ∧
      e.reply = (e.before.step e.op).1 := by
  induction ops using List.reverseRecOn with
  | nil => simp [trace] at he
  | append_singleton ops op ih =>
    rw [trace_concat] at he ⊢
    have hlen := length_trace ops
    have hbound : n ≤ ops.length := by
      have := (List.getElem?_eq_some_iff.mp he).1
      simp [hlen] at this
      omega
    rw [List.take_append_of_le_length hbound]
    rcases Nat.lt_or_eq_of_le hbound with hlt | heq
    · rw [List.getElem?_append_left (hlen ▸ hlt)] at he
      rw [List.take_append_of_le_length (hlen ▸ hbound)]
      exact ih he
    · subst heq
      rw [← hlen, List.getElem?_concat_length] at he
      obtain rfl := Option.some.inj he
      rw [List.take_length, ← hlen, List.take_left]
      exact ⟨rfl, rfl, rfl⟩

/-- The calls a history knows are calls of the run. -/
structure Knows (es : List (Entry (Nat × P) (Nat × K))) (h : Handle) (g : History) : Prop where
  deliveries : g.deliveries = (deliveries h es).map fun d => (d.1.1, d.2)
  answers : g.answers = (answers h es).filterMap verdict
  woken : g.woken = woken h es
  sends : ∀ i ∈ g.sends, ∃ e, es[i]? = some e ∧ ∃ payload k, e.op = .send h payload k
  recvs : ∀ j ∈ g.recvs, ∃ e, es[j]? = some e ∧ ∃ k, e.op = .recv h k
  parked : ∀ j ∈ g.parked, ∃ e, es[j]? = some e ∧ e.op.about = some h ∧
    ∃ wakes, e.reply = .ok (.transition ⟨.Parked, wakes⟩)

/-- A call that a history may gain is the last one. -/
theorem mem_concat_calls {Q : Entry P K → Prop} {es : List (Entry P K)} {e : Entry P K}
    {xs ys : List Nat} (hxs : ∀ i ∈ xs, ∃ e, es[i]? = some e ∧ Q e)
    (hys : ∀ i ∈ ys, i = es.length ∧ Q e) :
    ∀ i ∈ xs ++ ys, ∃ d, (es ++ [e])[i]? = some d ∧ Q d := by
  intro i hi
  rcases List.mem_append.mp hi with hi | hi
  · obtain ⟨d, hd, hQ⟩ := hxs i hi
    exact ⟨d, by rw [List.getElem?_append_left (List.getElem?_eq_some_iff.mp hd).1, hd], hQ⟩
  · obtain ⟨rfl, hQ⟩ := hys i hi
    exact ⟨e, List.getElem?_concat_length, hQ⟩

/-- What the log knows of a channel is what its calls did. -/
theorem Agree.knows {es : List (Entry (Nat × P) (Nat × K))} {log : List (Label Handle)}
    (hagree : Agree es log) (h : Handle) : Knows es h (history h log) := by
  induction hagree with
  | empty => constructor <;> simp [history, History.empty, deliveries, answers, woken, collect]
  | @step es log e l hrun hstep ih =>
    rw [history, hrun.length, hstep.record]
    by_cases habout : e.op.about = some h
    · rw [if_pos habout]
      constructor
      · simp [Entry.record, ih.deliveries, deliveries, answers, collect_concat, habout]
      · simp [Entry.record, ih.answers, answers, collect_concat, habout]
      · simp [Entry.record, ih.woken, woken, collect_concat, habout]
      · refine mem_concat_calls ih.sends fun i hi => ?_
        split at hi
        · rename_i k payload continuation _ hop _
          rw [hop] at habout
          obtain rfl := Option.some.inj habout
          exact ⟨by simpa using hi, _, _, hop⟩
        · simp at hi
      · refine mem_concat_calls ih.recvs fun i hi => ?_
        split at hi
        · rename_i k continuation _ hop _
          rw [hop] at habout
          obtain rfl := Option.some.inj habout
          exact ⟨by simpa using hi, _, hop⟩
        · simp at hi
      · refine mem_concat_calls ih.parked fun i hi => ?_
        split at hi
        · rename_i wakes hreply
          exact ⟨by simpa using hi, habout, wakes, hreply⟩
        · simp at hi
    · rw [if_neg habout]
      have hsame : ∀ {Q : Entry (Nat × P) (Nat × K) → Prop} {xs : List Nat},
          (∀ i ∈ xs, ∃ e, es[i]? = some e ∧ Q e) →
          ∀ i ∈ xs, ∃ d, (es ++ [e])[i]? = some d ∧ Q d := by
        intro Q xs hxs
        simpa using mem_concat_calls hxs (List.forall_mem_nil fun i => i = es.length ∧ Q e)
      constructor
      · simp [ih.deliveries, deliveries, answers, collect_concat, habout]
      · simp [ih.answers, answers, collect_concat, habout]
      · simp [ih.woken, woken, collect_concat, habout]
      · exact hsame ih.sends
      · exact hsame ih.recvs
      · exact hsame ih.parked

/-! ### Payloads pass unchanged -/

/-- Calls whose payloads all satisfy `Q` come from calls on the payloads that do. -/
theorem exists_restrict (Q : P → Prop) (ops : List (Op P K))
    (hops : ∀ op ∈ ops, ∀ h p k, op = .send h p k → Q p) :
    ∃ ops' : List (Op {p // Q p} K), ops'.map (Op.map Subtype.val id) = ops := by
  induction ops with
  | nil => exact ⟨[], rfl⟩
  | cons op ops ih =>
    obtain ⟨ops', rfl⟩ := ih fun op' h' => hops op' (List.mem_cons_of_mem _ h')
    have hop : ∃ op' : Op {p // Q p} K, op'.map Subtype.val id = op := by
      cases op with
      | «open» room => exact ⟨.open room, rfl⟩
      | send h p k => exact ⟨.send h ⟨p, hops _ (List.mem_cons_self ..) h p k rfl⟩ k, rfl⟩
      | recv h k => exact ⟨.recv h k, rfl⟩
      | close h => exact ⟨.close h, rfl⟩
    obtain ⟨op', rfl⟩ := hop
    exact ⟨op' :: ops', rfl⟩

/-- **A payload handed out was sent**: what holds of every payload sent holds of it. -/
theorem delivered_of_sent (Q : Nat × P → Prop) (ops : List (Op (Nat × P) (Nat × K)))
    (hops : ∀ op ∈ ops, ∀ h p k, op = .send h p k → Q p) {n j : Nat} {x : Nat × P}
    {e : Entry (Nat × P) (Nat × K)} (he : e ∈ (trace ops).1) (hx : (j, .Some x) ∈ e.answers n) :
    Q x := by
  obtain ⟨ops', rfl⟩ := exists_restrict Q ops hops
  rw [trace_map] at he
  obtain ⟨e', -, rfl⟩ := List.mem_map.mp he
  have hanswer : ∀ a : Answer {p // Q p}, a.map Subtype.val = .Some x → Q x := by
    intro a ha
    cases a with
    | Some p =>
      obtain rfl : p.val = x := by simpa [Answer.map] using ha
      exact p.property
    | _ => simp [Answer.map] at ha
  rcases e' with ⟨before, op, _ | _ | ⟨outcome, wakes⟩⟩
  · simp [Entry.answers, Entry.map, Except.map] at hx
  · simp [Entry.answers, Entry.map, Except.map, Reply.map] at hx
  · simp only [Entry.answers, Entry.map, Except.map, Reply.map, Transition.map,
      List.mem_append, List.map_map, List.mem_map] at hx
    rcases hx with hx | ⟨w, -, hw⟩
    · rcases outcome with a | _
      · exact hanswer a (Prod.ext_iff.mp (List.mem_singleton.mp hx)).2.symm
      · simp [Outcome.map] at hx
    · exact hanswer w.answer (Prod.ext_iff.mp hw).2

/-! ### Who is told that there is nothing -/

/-- **A receive is answered with nothing only at a stale handle, or by a close that finds nothing
to hand out.** -/
theorem State.Ok.nothing {s : State (Nat × P) (Nat × K)} (hs : s.Ok) {op : Op P K} {h : Handle}
    {n j : Nat} (habout : (op.tag n).about = some h)
    (hj : (j, Answer.None) ∈ Entry.answers n ⟨s, op.tag n, (s.step (op.tag n)).1⟩) :
    (j = n ∧ s.channelAt h = none) ∨
      op.tag n = .close h ∧ ∃ c, s.channelAt h = some c ∧ c.buffer = [] ∧
        ∀ w ∈ c.wait, w.isSender = false := by
  cases op with
  | «open» room => simp [Op.tag, Op.map, Op.about] at habout
  | send k payload continuation =>
    simp only [Op.tag, Op.map, State.step, State.send] at hj
    repeat' split at hj
    all_goals simp [Entry.answers, Except.map, Transition.ready, Transition.waking,
      Transition.parked] at hj
  | recv k continuation =>
    obtain rfl : k = h := by simpa [Op.tag, Op.map, Op.about] using habout
    simp only [Op.tag, Op.map, State.step] at hj
    rcases hat : s.channelAt k with _ | c
    · simp only [State.recv, hat] at hj
      exact .inl ⟨by simpa [Entry.answers, Except.map, Transition.ready] using hj, rfl⟩
    · -- a settled channel has something to give or lets the receiver wait
      exfalso
      cases hs.settled k c hat with
      | @draining room buffer hne =>
        obtain ⟨payload, buffer, rfl⟩ := List.exists_cons_of_ne_nil hne
        simp [State.recv, hat, Entry.answers, Except.map, Transition.ready] at hj
      | @receiving room r rs =>
        simp only [State.recv, hat, Channel.hasSender, List.map_cons, List.head?_cons] at hj
        split at hj <;> simp [Entry.answers, Except.map, Transition.parked] at hj
      | @sending room buffer ss hroom hfull =>
        rcases buffer with _ | ⟨payload, buffer⟩ <;> rcases ss with _ | ⟨w, ss⟩ <;>
          simp only [State.recv, hat, Channel.hasSender, List.map_nil, List.map_cons,
            Waiter.sender, List.head?_nil, List.head?_cons] at hj <;>
          split at hj <;>
          simp [Entry.answers, Except.map, Transition.ready, Transition.waking,
            Transition.parked] at hj
  | close k =>
    obtain rfl : k = h := by simpa [Op.tag, Op.map, Op.about] using habout
    refine .inr ⟨rfl, ?_⟩
    simp only [Op.tag, Op.map, State.step, State.close] at hj
    rcases hat : s.channelAt k with _ | c
    · simp [hat, Entry.answers, Transition.ready] at hj
    · cases hs.settled k c hat with
      | draining => simp [hat, Entry.answers, Transition.ready] at hj
      | @receiving room r rs =>
        refine ⟨_, rfl, rfl, fun w hw => ?_⟩
        obtain ⟨_, -, rfl⟩ := List.mem_map.mp hw
        rfl
      | @sending room buffer ss =>
        simp [hat, Entry.answers, State.closeWake_sender, Function.comp_def] at hj

/-! ## 5. First in, first out -/

/-- The numbered calls of a run. -/
def calls (ops : List (Op P K)) : List (Entry (Nat × P) (Nat × K)) := (trace (tagged ops)).1

/-- The table a numbered run leaves. -/
def final (ops : List (Op P K)) : State (Nat × P) (Nat × K) := (trace (tagged ops)).2

/-- **What a run does at one handle.**  The calls are numbered, so that equal payloads are told
apart. -/
structure Fifo (ops : List (Op P K)) (h : Handle) : Prop where
  /-- payloads are handed out in the order of their sends, each at most once -/
  order : ((deliveries h (calls ops)).map fun d => d.1.1).Pairwise (· < ·)
  /-- a receive gets at most one payload -/
  once : ((deliveries h (calls ops)).map Prod.snd).Nodup
  /-- what is handed out was sent on this handle, to a receive on this handle -/
  source : ∀ d ∈ deliveries h (calls ops),
    (∃ k, ops[d.1.1]? = some (.send h d.1.2 k)) ∧ ∃ k, ops[d.2]? = some (.recv h k)
  /-- a send answered yes is handed out to exactly one receive, or else is still buffered -/
  yes : ∀ i, (i, .Bool true) ∈ answers h (calls ops) →
    Xor (∃! d, d ∈ deliveries h (calls ops) ∧ d.1.1 = i)
      (i ∈ ((final ops).bufferOf h).map Prod.fst)
  /-- a send answered no is never handed out, and not buffered either -/
  no : ∀ i, (i, .Bool false) ∈ answers h (calls ops) →
    (∀ d ∈ deliveries h (calls ops), d.1.1 ≠ i) ∧ i ∉ ((final ops).bufferOf h).map Prod.fst
  /-- a receive is answered with nothing when its handle is stale, so that a channel it ever had
  was closed before, or when a close finds the channel empty and without waiting sends -/
  nothing : ∀ (n : Nat) (e : Entry (Nat × P) (Nat × K)), (calls ops)[n]? = some e →
    e.op.about = some h → ∀ j, (j, .None) ∈ e.answers n →
      (j = n ∧ e.before.channelAt h = none ∧
        ∀ (m : Nat) (d : Entry (Nat × P) (Nat × K)), (calls ops)[m]? = some d →
          d.reply = .ok (.handle h) → m < n → ∃ i, m < i ∧ i < n ∧ ops[i]? = some (.close h)) ∨
      e.op = .close h ∧ ∃ c, e.before.channelAt h = some c ∧ c.buffer = [] ∧
        ∀ w ∈ c.wait, w.isSender = false
  /-- nobody is woken twice -/
  woken : (woken h (calls ops)).Nodup
  /-- who is woken was waiting on this handle -/
  parked : ∀ j ∈ Channels.woken h (calls ops), ∃ e : Entry (Nat × P) (Nat × K),
    (calls ops)[j]? = some e ∧ e.op.about = some h ∧
      ∃ wakes, e.reply = .ok (.transition ⟨.Parked, wakes⟩)

theorem tagged_take (ops : List (Op P K)) (n : Nat) :
    tagged (ops.take n) = (tagged ops).take n := by
  refine List.ext_getElem? fun i => ?_
  simp only [getElem?_tagged, List.getElem?_take]
  split <;> rfl

/-- A label at a known place of the log is what the call at that place did. -/
theorem Agree.exists_label {es : List (Entry (Nat × P) (Nat × K))} {log : List (Label Handle)}
    (hagree : Agree es log) {m : Nat} {e : Entry (Nat × P) (Nat × K)} (he : es[m]? = some e) :
    ∃ l later earlier, log = later ++ l :: earlier ∧ earlier.length = m ∧ e.Tells m l ∧
      ∀ l' ∈ later, ∃ i d, m < i ∧ es[i]? = some d ∧ d.Tells i l' := by
  induction hagree with
  | empty => simp at he
  | @step es log d l hrun hstep ih =>
    rcases Nat.lt_or_ge m es.length with hlt | hge
    · rw [List.getElem?_append_left hlt] at he
      obtain ⟨l', later, earlier, rfl, hlen, htold, hlater⟩ := ih he
      refine ⟨l', l :: later, earlier, rfl, hlen, htold, fun l'' hl => ?_⟩
      rcases List.mem_cons.mp hl with rfl | hl
      · exact ⟨es.length, d, hlt, List.getElem?_concat_length, hstep⟩
      · obtain ⟨i, d', hi, hd, htold'⟩ := hlater l'' hl
        exact ⟨i, d', hi,
          by rw [List.getElem?_append_left (List.getElem?_eq_some_iff.mp hd).1, hd], htold'⟩
    · have hm : m = es.length := by
        have := (List.getElem?_eq_some_iff.mp he).1
        simp at this
        omega
      subst hm
      obtain rfl : d = e := by simpa using he
      exact ⟨l, [], log, rfl, hrun.length, hstep, by simp⟩

/-- **A handle that was given out is stale only after its channel was closed.** -/
theorem closed_of_stale (ops : List (Op P K)) (h : Handle) (hstale : (final ops).channelAt h = none)
    {m : Nat} {d : Entry (Nat × P) (Nat × K)} (hd : (calls ops)[m]? = some d)
    (hopened : d.reply = .ok (.handle h)) : ∃ i, m < i ∧ ops[i]? = some (.close h) := by
  obtain ⟨-, log, hrun, hagree⟩ := trace_refines ops
  obtain ⟨l, later, earlier, hlog, -, htold, hlater⟩ := hagree.exists_label hd
  rw [htold.opened h hopened] at hlog
  rcases hrun.open_or_closed hlog with ⟨c, hc, -⟩ | ⟨ss, rs, hclosed⟩
  · rw [State.table, show (trace (tagged ops)).2.channelAt h = none from hstale] at hc
    exact absurd hc (by simp)
  · obtain ⟨i, e, hi, he, htold'⟩ := hlater _ hclosed
    obtain ⟨op, hop, heq⟩ := op_of_entry he
    refine ⟨i, hi, ?_⟩
    have hclose := htold'.closed h ss rs rfl
    rw [heq] at hclose
    have : op = .close h := by
      rw [← op.untag i, hclose]
      rfl
    rw [hop, this]

theorem mem_collect {α : Type} {h : Handle} {get : Nat → Entry P K → List α}
    {es : List (Entry P K)} {a : α} (ha : a ∈ collect h get es) : ∃ n, ∃ e ∈ es, a ∈ get n e := by
  simp only [collect, List.mem_flatten, List.mem_mapIdx] at ha
  obtain ⟨_, ⟨n, hn, rfl⟩, ha⟩ := ha
  split at ha
  · exact ⟨n, es[n], List.getElem_mem hn, ha⟩
  · simp at ha

/-- A payload handed out is the payload of the send with its number. -/
theorem send_of_delivery {ops : List (Op P K)} {h : Handle} {d : (Nat × P) × Nat}
    (hd : d ∈ deliveries h (calls ops)) : ∃ h' k, ops[d.1.1]? = some (.send h' d.1.2 k) := by
  obtain ⟨⟨j, a⟩, hanswer, heq⟩ := List.mem_filterMap.mp hd
  obtain ⟨n, e, he, hin⟩ := mem_collect hanswer
  cases a with
  | Some x =>
    obtain rfl : (x, j) = d := by simpa using heq
    refine delivered_of_sent (fun x => ∃ h' k, ops[x.1]? = some (.send h' x.2 k)) (tagged ops) ?_ he
      hin
    intro op hop h' p k hsend
    obtain ⟨i, hi⟩ := List.mem_iff_getElem?.mp hop
    rw [getElem?_tagged] at hi
    obtain ⟨op', hop', rfl⟩ := Option.map_eq_some_iff.mp hi
    cases op' with
    | send h'' p' k'' =>
      obtain ⟨-, rfl, -⟩ : _ ∧ (i, p') = p ∧ _ := by simpa [Op.tag, Op.map] using hsend
      exact ⟨h'', k'', hop'⟩
    | _ => simp [Op.tag, Op.map] at hsend
  | _ => simp at heq

/-- **Every run keeps every handle first in, first out.** -/
theorem fifo (ops : List (Op P K)) (h : Handle) : Fifo ops h := by
  obtain ⟨hok, log, hrun, hagree⟩ := trace_refines ops
  have hgood := hrun.good h
  have hknows := hagree.knows h
  have hbuffer : inBuffer ((trace (tagged ops)).2.table h) =
      ((final ops).bufferOf h).map Prod.fst := by
    simp only [State.table, State.bufferOf, final]
    cases (trace (tagged ops)).2.channelAt h <;> rfl
  have hdeliveries : (history h log).deliveries.map Prod.fst =
      (deliveries h (calls ops)).map fun d => d.1.1 := by
    simp [hknows.deliveries, calls]
  have hyes : yesList (history h log) ((trace (tagged ops)).2.table h) =
      ((deliveries h (calls ops)).map fun d => d.1.1) ++
        ((final ops).bufferOf h).map Prod.fst := by
    rw [yesList, hdeliveries, hbuffer]
  have hsublist : (yesList (history h log) ((trace (tagged ops)).2.table h)).Sublist
      (sentList (history h log) ((trace (tagged ops)).2.table h)) := by
    refine List.Sublist.append_left ?_ _
    cases (trace (tagged ops)).2.table h <;> simp
  have hsorted := hgood.order.sublist hsublist
  rw [hyes] at hsorted
  have hverdict : ∀ i b, (i, Answer.Bool b) ∈ answers h (calls ops) →
      (i, b) ∈ (history h log).answers := by
    intro i b hi
    rw [hknows.answers]
    exact List.mem_filterMap.mpr ⟨_, hi, rfl⟩
  have hin : ∀ d ∈ deliveries h (calls ops),
      d.1.1 ∈ (deliveries h (calls ops)).map fun d => d.1.1 :=
    fun d hd => List.mem_map.mpr ⟨d, hd, rfl⟩
  constructor
  case order => exact (List.pairwise_append.mp hsorted).1
  case once =>
    have hrecvs := hgood.recvs
    rw [recvList, hknows.deliveries, List.map_map] at hrecvs
    exact (List.nodup_append.mp hrecvs).1
  case source =>
    intro d hd
    have hmem : (d.1.1, d.2) ∈ (history h log).deliveries := by
      rw [hknows.deliveries]
      exact List.mem_map.mpr ⟨d, hd, rfl⟩
    obtain ⟨e, he, p, k, hsend⟩ := hknows.sends d.1.1
      (hgood.sent _ (List.mem_append_left _ (List.mem_map.mpr ⟨_, hmem, rfl⟩)))
    obtain ⟨e', he', k', hrecv⟩ := hknows.recvs d.2
      (hgood.received _ (List.mem_append_left _ (List.mem_map.mpr ⟨_, hmem, rfl⟩)))
    obtain ⟨h', k'', hpayload⟩ := send_of_delivery hd
    obtain ⟨op, hop, hsend'⟩ := op_of_entry he
    obtain ⟨op', hop', hrecv'⟩ := op_of_entry he'
    rw [hpayload] at hop
    obtain rfl := Option.some.inj hop
    obtain ⟨rfl, -, -⟩ : h' = h ∧ _ := by
      simpa [Op.tag, Op.map] using hsend'.symm.trans hsend
    refine ⟨⟨k'', hpayload⟩, k'.2, ?_⟩
    rw [hop', ← op'.untag d.2, ← hrecv', hrecv]
    rfl
  case yes =>
    intro i hi
    have hmem := (hgood.yes i).mp (hverdict i true hi)
    rw [hyes] at hmem
    have hdisjoint := (List.nodup_append.mp (hsorted.imp Nat.ne_of_lt)).2.2
    rcases List.mem_append.mp hmem with hout | hleft
    · obtain ⟨d, hd, rfl⟩ := List.mem_map.mp hout
      refine .inl ⟨⟨d, ⟨hd, rfl⟩, fun d' hd' => ?_⟩, fun hleft => hdisjoint _ hout _ hleft rfl⟩
      exact List.inj_on_of_nodup_map (List.nodup_append.mp (hsorted.imp Nat.ne_of_lt)).1 hd'.1 hd
        hd'.2
    · refine .inr ⟨hleft, ?_⟩
      rintro ⟨d, ⟨hd, heq⟩, -⟩
      exact hdisjoint _ (hin d hd) _ hleft heq
  case no =>
    intro i hi
    obtain ⟨-, hnot⟩ := hgood.no i (hverdict i false hi)
    have hnot := fun hmem => hnot (hsublist.subset hmem)
    rw [hyes] at hnot
    exact ⟨fun d hd heq => hnot (List.mem_append_left _ (heq ▸ hin d hd)),
      fun hmem => hnot (List.mem_append_right _ hmem)⟩
  case nothing =>
    intro n e he habout j hj
    obtain ⟨op, hop, heq⟩ := op_of_entry he
    obtain ⟨hcalls, hbefore, hreply⟩ := trace_take he
    rw [← tagged_take] at hcalls hbefore
    have hok' := (trace_refines (ops.take n)).1
    rw [hbefore] at hok'
    rcases e with ⟨before, op', reply⟩
    simp only at heq hreply hok' habout
    subst heq hreply
    refine (hok'.nothing habout hj).imp (fun hstale => ⟨hstale.1, hstale.2, ?_⟩) id
    intro m d hd hopened hmn
    have hd' : (calls (ops.take n))[m]? = some d := by
      rw [calls, hcalls, List.getElem?_take_of_lt hmn]
      exact hd
    obtain ⟨i, hi, hclose⟩ := closed_of_stale (ops.take n) h
      (by rw [final, hbefore]; exact hstale.2) hd' hopened
    rw [List.getElem?_take] at hclose
    split at hclose
    · rename_i hin
      exact ⟨i, hi, hin, hclose⟩
    · simp at hclose
  case woken =>
    have hwoken := hgood.woken
    rw [callers, hknows.woken] at hwoken
    exact (List.nodup_append.mp hwoken).1
  case parked =>
    intro j hj
    refine hknows.parked j (hgood.parked j ?_)
    rw [callers, hknows.woken]
    exact List.mem_append_left _ hj

/-- **Channels are bounded queues.**  Numbering the calls changes nothing a run does, and every
numbered run is first in, first out at every handle. -/
theorem channels_fifo (ops : List (Op P K)) :
    trace ops = ((calls ops).map (Entry.map Prod.snd Prod.snd),
        (final ops).map Prod.snd Prod.snd) ∧
      ∀ h, Fifo ops h :=
  ⟨trace_tagged ops, fifo ops⟩

end TeamyBend.Runtime.Channels
