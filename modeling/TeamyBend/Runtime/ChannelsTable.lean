/-
# What the channel table represents

The invariant that makes the error branches and the counter subtractions of `channels.rs` safe.
Nobody waits whom a channel could serve, a closed channel still has something to give and nobody
waiting, the two counters count what the rows hold, and the free list names every row once that
is vacant and can still take a generation.

Each call keeps all of it, and a call that fails only ever ran out of a budget and changes
nothing.  Generations only grow, so a handle is given out once.
-/
import TeamyBend.Runtime.ChannelsWaiting

namespace TeamyBend.Runtime.Channels

variable {P K : Type} {s s' : State P K} {h : Handle} {c d : Channel P K}

/-! ## 1. The invariant -/

/-- How many payloads a channel counts: what is buffered and what waits with its sender. -/
def Channel.held (channel : Channel P K) : Nat :=
  channel.buffer.length + channel.wait.countP Waiter.isSender

@[simp] theorem countP_sender (continuation : K) (payload : P) (wait : List (Waiter P K)) :
    (Waiter.Sender continuation payload :: wait).countP Waiter.isSender =
      wait.countP Waiter.isSender + 1 := List.countP_cons_of_pos rfl

/-- How many payloads a row counts. -/
def Row.held (row : Row P K) : Nat :=
  match row.channel with
  | some channel => channel.held
  | none => 0

/-- How many payloads are in the table. -/
def State.held (s : State P K) : Nat := (s.rows.map Row.held).sum

/-- **A channel between two calls.** -/
structure Channel.Fair (c : Channel P K) : Prop where
  kinds : (∀ w ∈ c.wait, w.isSender = true) ∨ ∀ w ∈ c.wait, w.isSender = false
  receivers : ∀ w ∈ c.wait, w.isSender = false → c.buffer = []
  senders : ∀ w ∈ c.wait, w.isSender = true → c.buffer.length = c.room
  bounded : c.buffer.length ≤ c.room
  closed : c.closed = true → c.wait = [] ∧ c.buffer ≠ []

@[simp] theorem State.payloads_setChannel (s : State P K) (index : Nat)
    (channel : Option (Channel P K)) : (s.setChannel index channel).payloads = s.payloads := rfl

@[simp] theorem State.waiters_setChannel (s : State P K) (index : Nat)
    (channel : Option (Channel P K)) : (s.setChannel index channel).waiters = s.waiters := rfl

/-- A channel where nobody waits. -/
theorem Channel.Fair.nobody {room : Nat} {closed : Bool} {buffer : List P}
    (hbounded : buffer.length ≤ room) (hclosed : closed = true → buffer ≠ []) :
    (⟨room, closed, buffer, []⟩ : Channel P K).Fair where
  kinds := .inl (by simp)
  receivers := by simp
  senders := by simp
  bounded := hbounded
  closed hc := ⟨rfl, hclosed hc⟩

/-- Fewer parties wait, for the same reason. -/
theorem Channel.Fair.served {wait : List (Waiter P K)} (hc : c.Fair)
    (hwait : ∀ w ∈ wait, w ∈ c.wait) (hopen : c.closed = false) :
    ({ c with wait } : Channel P K).Fair where
  kinds := hc.kinds.imp (fun h w hw => h w (hwait w hw)) fun h w hw => h w (hwait w hw)
  receivers w hw := hc.receivers w (hwait w hw)
  senders w hw := hc.senders w (hwait w hw)
  bounded := hc.bounded
  closed hclosed := absurd hclosed (by simp [hopen])

/-- All who wait are what the first one is. -/
theorem Channel.Fair.alike {w : Waiter P K} {wait : List (Waiter P K)} (hc : c.Fair)
    (hwait : c.wait = w :: wait) : ∀ v ∈ wait, v.isSender = w.isSender := by
  intro v hv
  have hmem : v ∈ c.wait := by rw [hwait]; exact List.mem_cons_of_mem _ hv
  have hfirst : w ∈ c.wait := by rw [hwait]; exact List.mem_cons_self ..
  rcases hc.kinds with h | h
  · rw [h v hmem, h w hfirst]
  · rw [h v hmem, h w hfirst]

/-- Nobody waits where there is room and no receiver. -/
theorem Channel.Fair.nobody_waits (hc : c.Fair) (hreceiver : c.hasReceiver = false)
    (hroom : c.buffer.length < c.room) : c.wait = [] := by
  cases hwait : c.wait with
  | nil => rfl
  | cons w wait =>
    have hfirst : w ∈ c.wait := by rw [hwait]; exact List.mem_cons_self ..
    cases w with
    | Sender sender waiting =>
      have hfull := hc.senders _ hfirst rfl
      omega
    | Receiver receiver => simp [Channel.hasReceiver, hwait] at hreceiver

/-- One more payload, where nobody waits. -/
theorem Channel.Fair.buffered (hc : c.Fair) (hreceiver : c.hasReceiver = false)
    (hroom : c.buffer.length < c.room) (hopen : c.closed ≠ true) (payload : P) :
    ({ c with buffer := c.buffer ++ [payload] } : Channel P K).Fair := by
  rw [hc.nobody_waits hreceiver hroom]
  refine .nobody ?_ fun hclosed => absurd hclosed hopen
  rw [List.length_append, List.length_singleton]
  exact hroom

/-- One more sender waits. -/
theorem Channel.Fair.sender_waits (hc : c.Fair) (hreceiver : c.hasReceiver = false)
    (hfull : ¬c.buffer.length < c.room) (hopen : c.closed ≠ true) (sender : K) (payload : P) :
    ({ c with wait := c.wait ++ [.Sender sender payload] } : Channel P K).Fair := by
  have hsenders : ∀ w ∈ c.wait, w.isSender = true := by
    rcases hc.kinds with hall | hnone
    · exact hall
    · cases hwait : c.wait with
      | nil => simp
      | cons w wait =>
        have hkind := hnone w (by rw [hwait]; exact List.mem_cons_self ..)
        cases w with
        | Sender sender waiting => cases hkind
        | Receiver receiver => simp [Channel.hasReceiver, hwait] at hreceiver
  have hlength : c.buffer.length = c.room := Nat.le_antisymm hc.bounded (Nat.le_of_not_lt hfull)
  refine ⟨.inl ?_, ?_, fun _ _ _ => hlength, hc.bounded, fun hclosed => absurd hclosed hopen⟩
  · simpa [or_imp, forall_and, Waiter.isSender] using hsenders
  · intro w hw hkind
    rcases List.mem_append.mp hw with hw | hw
    · exact absurd (hsenders w hw) (by simp [hkind])
    · rw [List.mem_singleton.mp hw] at hkind
      cases hkind

/-- One more receiver waits. -/
theorem Channel.Fair.receiver_waits (hc : c.Fair) (hbuffer : c.buffer = [])
    (hsender : c.hasSender = false) (hopen : c.closed ≠ true) (receiver : K) :
    ({ c with wait := c.wait ++ [.Receiver receiver] } : Channel P K).Fair := by
  have hreceivers : ∀ w ∈ c.wait, w.isSender = false := by
    rcases hc.kinds with hall | hnone
    · cases hwait : c.wait with
      | nil => simp
      | cons w wait =>
        have hkind := hall w (by rw [hwait]; exact List.mem_cons_self ..)
        cases w with
        | Sender sender waiting => simp [Channel.hasSender, hwait] at hsender
        | Receiver receiver => cases hkind
    · exact hnone
  have hnew : ∀ w ∈ c.wait ++ [.Receiver receiver], w.isSender = false := by
    simpa [or_imp, forall_and, Waiter.isSender] using hreceivers
  refine ⟨.inr hnew, fun _ _ _ => hbuffer, ?_, hc.bounded, fun hclosed => absurd hclosed hopen⟩
  intro w hw hkind
  exact absurd (hnew w hw) (by simp [hkind])

/-- Who waits while something is buffered is a sender, and the buffer is full. -/
theorem Channel.Fair.first_sender {payload : P} {buffer : List P} {w : Waiter P K}
    {wait : List (Waiter P K)} (hc : c.Fair) (hbuffer : c.buffer = payload :: buffer)
    (hwait : c.wait = w :: wait) : w.isSender = true ∧ c.closed = false := by
  have hfirst : w ∈ c.wait := by rw [hwait]; exact List.mem_cons_self ..
  constructor
  · cases hkind : w.isSender with
    | true => rfl
    | false =>
      have hempty := hc.receivers w hfirst hkind
      rw [hbuffer] at hempty
      cases hempty
  · cases hclosed : c.closed with
    | false => rfl
    | true =>
      have hnobody := (hc.closed hclosed).1
      rw [hwait] at hnobody
      cases hnobody

/-- The first sender hands its payload over when one is taken. -/
theorem Channel.Fair.relayed {payload waiting : P} {buffer : List P} {sender : K}
    {wait : List (Waiter P K)} (hc : c.Fair) (hbuffer : c.buffer = payload :: buffer)
    (hwait : c.wait = .Sender sender waiting :: wait) :
    ({ c with buffer := buffer ++ [waiting], wait } : Channel P K).Fair := by
  have hall : ∀ w ∈ wait, w.isSender = true := hc.alike hwait
  have hopen := (hc.first_sender hbuffer hwait).2
  have hfull : c.buffer.length = c.room :=
    hc.senders _ (by rw [hwait]; exact List.mem_cons_self ..) rfl
  rw [hbuffer, List.length_cons] at hfull
  refine ⟨.inl hall, ?_, ?_, ?_, ?_⟩
  · intro w hw hnot
    exact absurd (hall w hw) (by simp [hnot])
  · simp [hfull]
  · simp [hfull]
  · simp [hopen]

/-- **The representation invariant** of the table. -/
structure State.Represents (s : State P K) : Prop extends s.Vacancies where
  fair : ∀ (i : Nat) (row : Row P K), s.rows[i]? = some row →
    ∀ channel, row.channel = some channel → channel.Fair
  payloads : s.payloads = s.held
  waiters : s.waiters = s.waiting

theorem State.represents_default : (State.default : State P K).Represents where
  vacant := by simp [State.default]
  nodup := List.nodup_nil
  fair := by simp [State.default]
  payloads := rfl
  waiters := rfl

theorem State.Represents.fairAt (hs : s.Represents) (hat : s.channelAt h = some c) : c.Fair :=
  hs.fair h.index _ (State.channelAt_eq_some.mp hat) c rfl

/-- The counters count at least what one channel holds, so no subtraction falls below zero. -/
theorem State.Represents.counted (hs : s.Represents) (hat : s.channelAt h = some c) :
    c.held ≤ s.payloads ∧ c.wait.length ≤ s.waiters := by
  have hrow := State.channelAt_eq_some.mp hat
  have hheld := sum_map_set Row.held ⟨h.generation, none⟩ hrow
  have hwaiting := sum_map_set Row.waiting ⟨h.generation, none⟩ hrow
  have hpayloads := hs.payloads
  have hwaiters := hs.waiters
  simp only [State.held, State.waiting, Row.held, Row.waiting] at *
  omega

/-- Another channel behind a handle, or none. -/
theorem State.Represents.put {channel : Option (Channel P K)} (hs : s.Represents)
    (hat : s.channelAt h = some c) (hvacant : s'.Vacancies)
    (hrows : s'.rows = (s.setChannel h.index channel).rows)
    (hfair : ∀ d, channel = some d → d.Fair)
    (hpayloads : s'.payloads + c.held = s.payloads + Row.held ⟨h.generation, channel⟩)
    (hwaiters : s'.waiters + c.wait.length = s.waiters + Row.waiting ⟨h.generation, channel⟩) :
    s'.Represents := by
  have hrow := State.channelAt_eq_some.mp hat
  have hset : s'.rows = s.rows.set h.index ⟨h.generation, channel⟩ := by
    rw [hrows, State.setChannel]
    exact modify_eq_set _ hrow
  have hheld := sum_map_set Row.held ⟨h.generation, channel⟩ hrow
  have hwaiting := sum_map_set Row.waiting ⟨h.generation, channel⟩ hrow
  rw [← hset] at hheld hwaiting
  refine ⟨hvacant, fun i row hi => ?_, ?_, ?_⟩
  · rw [hset, List.getElem?_set] at hi
    split at hi
    · split at hi
      · cases hi
        exact hfair
      · cases hi
    · exact hs.fair i row hi
  · have hold := hs.payloads
    simp only [State.held] at hold ⊢
    simp only [Row.held] at hheld hpayloads ⊢
    omega
  · have hold := hs.waiters
    simp only [State.waiting] at hold ⊢
    simp only [Row.waiting] at hwaiting hwaiters ⊢
    omega

/-! ## 2. What a call does -/

/-- The errors of an exhausted budget. -/
def budgetErrors : List KernelError :=
  [.new "IO channel table budget exhausted", .new "IO channel payload budget exhausted",
    .new "IO channel waiter budget exhausted"]

/-- Rows stay, and their generations do not fall. -/
def State.Grows (s s' : State P K) : Prop :=
  ∀ (i : Nat) (row : Row P K), s.rows[i]? = some row →
    ∃ row', s'.rows[i]? = some row' ∧ row.generation ≤ row'.generation

theorem State.Grows.refl (s : State P K) : s.Grows s := fun _ row hi => ⟨row, hi, Nat.le_refl _⟩

/-- Replacing a channel leaves the generations. -/
theorem State.Grows.put {channel : Option (Channel P K)} {index : Nat}
    (hrows : s'.rows = (s.setChannel index channel).rows) : s.Grows s' := by
  intro i row hi
  rw [hrows, State.setChannel]
  by_cases hindex : index = i
  · exact ⟨{ row with channel }, by simp [hindex, hi], Nat.le_refl _⟩
  · exact ⟨row, by simp [hindex, hi], Nat.le_refl _⟩

/-- **What every call does**: it keeps the invariant, lets no generation fall, and where it fails
a budget was exhausted and nothing changed. -/
structure Kept {α : Type} (s : State P K) (r : Except KernelError α × State P K) : Prop where
  represents : r.2.Represents
  grows : s.Grows r.2
  failed : ∀ err, r.1 = .error err → err ∈ budgetErrors ∧ r.2 = s

theorem Kept.same {α : Type} (hs : s.Represents) (a : α) : Kept s (.ok a, s) :=
  ⟨hs, .refl s, by simp⟩

theorem Kept.refused {α : Type} (hs : s.Represents) {err : KernelError}
    (herr : err ∈ budgetErrors) : Kept s ((.error err, s) : Except KernelError α × State P K) := by
  refine ⟨hs, .refl s, ?_⟩
  rintro _ ⟨⟩
  exact ⟨herr, rfl⟩

/-- A call that puts another channel behind a handle. -/
theorem Kept.put {α : Type} {a : α} (hs : s.Represents) (hat : s.channelAt h = some c)
    (hrows : s'.rows = (s.setChannel h.index (some d)).rows) (hfree : s'.free = s.free)
    (hd : d.Fair) (hpayloads : s'.payloads + c.held = s.payloads + d.held)
    (hwaiters : s'.waiters + c.wait.length = s.waiters + d.wait.length) :
    Kept s (.ok a, s') := by
  refine ⟨?_, .put hrows, by simp⟩
  refine hs.put hat (hs.toVacancies.replace hat hrows hfree) hrows ?_ hpayloads hwaiters
  rintro _ ⟨⟩
  exact hd

/-- A call that empties a channel and releases its row. -/
theorem Kept.retire {α : Type} {a : α} (hs : s.Represents) (hat : s.channelAt h = some c)
    (payloads waiters : Nat) (hpayloads : payloads + c.held = s.payloads)
    (hwaiters : waiters + c.wait.length = s.waiters) :
    Kept s (.ok a, { s.setChannel h.index (some d) with payloads, waiters }.release h.index) := by
  have hset : State.channelAt { s.setChannel h.index (some d) with payloads, waiters } h =
      some d := (State.channelAt_replace hat rfl h).trans (if_pos rfl)
  have hreplaced : State.Vacancies { s.setChannel h.index (some d) with payloads, waiters } :=
    hs.toVacancies.replace hat rfl rfl
  have hvacant := hreplaced.release hset
  have hrows := (State.rows_release _ h.index).trans
    (State.rows_modify_twice s h.index payloads waiters (some d) none)
  have hcounts : ∀ t : State P K, (t.release h.index).payloads = t.payloads ∧
      (t.release h.index).waiters = t.waiters := by
    intro t
    simp only [State.release]
    split
    · exact ⟨rfl, rfl⟩
    · split
      · exact ⟨rfl, rfl⟩
      · exact ⟨rfl, rfl⟩
  refine ⟨hs.put (c := c) hat hvacant hrows (by simp) ?_ ?_, .put hrows, by simp⟩
  · rw [(hcounts _).1]
    exact hpayloads
  · rw [(hcounts _).2]
    exact hwaiters

/-! ## 3. One lemma for each operation -/

theorem State.Represents.send (hs : s.Represents) (payload : P) (continuation : K) :
    Kept s (s.send h payload continuation) := by
  unfold State.send
  cases hat : s.channelAt h with
  | none => exact .same hs _
  | some c =>
    have hc := hs.fairAt hat
    have hcounted := hs.counted hat
    simp only
    split_ifs with hclosed hpayloads hwaiters hreceiver hbuffer
    · exact .same hs _
    · exact .refused hs (by simp [budgetErrors])
    · exact .refused hs (by simp [budgetErrors])
    · -- the first waiting receiver is handed the payload
      cases hwait : c.wait with
      | nil => simp [Channel.hasReceiver, hwait] at hreceiver
      | cons w wait =>
        cases w with
        | Sender sender waiting => simp [Channel.hasReceiver, hwait] at hreceiver
        | Receiver receiver =>
          have hmem : ∀ w ∈ wait, w ∈ c.wait := by
            intro w hw
            rw [hwait]
            exact List.mem_cons_of_mem _ hw
          refine .put hs hat rfl rfl (hc.served hmem (by simpa using hclosed)) ?_ ?_
          · simp [Channel.held, hwait, Waiter.isSender]
          · simp only [hwait, List.length_cons] at hcounted ⊢
            omega
    · -- nobody waits for an empty buffer, and one that has room left is not waited for by senders
      refine .put hs hat rfl rfl (hc.buffered (by simpa using hreceiver) (by simpa using hbuffer)
        hclosed _) ?_ rfl
      simp [Channel.held]
      omega
    · refine .put hs hat rfl rfl
        (hc.sender_waits (by simpa using hreceiver) (by simpa using hbuffer) hclosed _ _) ?_ ?_
      · simp [Channel.held, Waiter.isSender]
        omega
      · simp
        omega

theorem State.Represents.recv (hs : s.Represents) (continuation : K) :
    Kept s (s.recv h continuation) := by
  unfold State.recv
  cases hat : s.channelAt h with
  | none => exact .same hs _
  | some c =>
    have hc := hs.fairAt hat
    have hcounted := hs.counted hat
    simp only
    split
    · exact .refused hs (by simp [budgetErrors])
    · cases hbuffer : c.buffer with
      | cons payload buffer =>
        have hbounded := hc.bounded
        rw [hbuffer, List.length_cons] at hbounded
        cases hwait : c.wait with
        | nil =>
          have hheld : c.held = buffer.length + 1 := by simp [Channel.held, hbuffer, hwait]
          simp only [State.releaseIfDone]
          split
          · rename_i hdone
            simp only [Bool.and_eq_true, List.isEmpty_iff] at hdone
            refine .retire hs hat _ _ ?_ (by simp [hwait])
            simp [hdone.2] at hheld
            omega
          · rename_i hdone
            simp only [Bool.and_eq_true, List.isEmpty_iff, not_and] at hdone
            refine .put hs hat rfl rfl (.nobody (Nat.le_of_succ_le hbounded) hdone) ?_
              (by simp [hwait])
            simp only [Channel.held, hbuffer, hwait] at hcounted ⊢
            simp at hcounted ⊢
            omega
        | cons w wait =>
          obtain ⟨hkind, hopen⟩ := hc.first_sender hbuffer hwait
          cases w with
          | Receiver receiver => cases hkind
          | Sender sender waiting =>
            have hrelayed := hc.relayed hbuffer hwait
            rw [hopen] at hrelayed
            simp only [State.releaseIfDone, hopen, Bool.false_and, Bool.false_eq_true, if_false]
            refine .put hs hat rfl rfl hrelayed ?_ ?_
            · simp only [Channel.held, hbuffer, hwait] at hcounted ⊢
              simp at hcounted ⊢
              omega
            · simp only [hwait, List.length_cons] at hcounted ⊢
              omega
      | nil =>
        simp only
        split
        · -- the first waiting sender hands over its payload
          rename_i hsender
          cases hwait : c.wait with
          | nil => simp [Channel.hasSender, hwait] at hsender
          | cons w wait =>
            cases w with
            | Receiver receiver => simp [Channel.hasSender, hwait] at hsender
            | Sender sender payload =>
              have hopen : c.closed = false := by
                cases hclosed : c.closed with
                | false => rfl
                | true => exact absurd hbuffer (hc.closed hclosed).2
              have hmem : ∀ w ∈ wait, w ∈ c.wait := by
                intro w hw
                rw [hwait]
                exact List.mem_cons_of_mem _ hw
              have hserved := hc.served hmem hopen
              rw [hbuffer] at hserved
              refine .put hs hat rfl rfl hserved ?_ ?_
              · simp only [Channel.held, hbuffer, hwait] at hcounted ⊢
                simp at hcounted ⊢
                omega
              · simp only [hwait, List.length_cons] at hcounted ⊢
                omega
        · split
          · rename_i hclosed
            exact absurd hbuffer (hc.closed hclosed).2
          · rename_i hsender hclosed
            have hwaits := hc.receiver_waits hbuffer (by simpa using hsender) hclosed continuation
            rw [hbuffer] at hwaits
            refine .put hs hat rfl rfl hwaits ?_ ?_
            · simp [Channel.held, hbuffer, Waiter.isSender]
            · simp
              omega

theorem State.Represents.close (hs : s.Represents) :
    (s.close h).2.Represents ∧ s.Grows (s.close h).2 := by
  have hkept : Kept s ((.ok (s.close h).1, (s.close h).2) :
      Except KernelError (Transition P K) × State P K) := by
    unfold State.close
    cases hat : s.channelAt h with
    | none => exact .same hs _
    | some c =>
      have hcounted := hs.counted hat
      simp only
      split_ifs with hclosed hempty
      · exact .same hs _
      · simp only [List.isEmpty_iff] at hempty
        have hheld : c.held = c.wait.countP Waiter.isSender := by simp [Channel.held, hempty]
        exact .retire hs hat _ _ (by omega) (by omega)
      · simp only [List.isEmpty_iff] at hempty
        refine .put hs hat rfl rfl (.nobody (hs.fairAt hat).bounded fun _ => hempty) ?_ ?_
        · simp [Channel.held] at hcounted ⊢
          omega
        · simp
          omega
  exact ⟨hkept.represents, hkept.grows⟩

/-- The table after a vacant row took its next generation. -/
def State.occupy (s : State P K) (index generation room : Nat) : State P K :=
  { s with rows := s.rows.set index ⟨generation, some ⟨room, false, [], []⟩⟩ }

theorem State.openAt_vacant {index room g : Nat} (hrow : s.rows[index]? = some ⟨g, none⟩)
    (hg : g < u32Max) :
    s.openAt index room = (.ok ⟨index, g + 1⟩, s.occupy index (g + 1) room) := by
  simp [State.openAt, State.occupy, hrow, Nat.ne_of_lt hg]

theorem State.Represents.occupy (hs : s.Represents) {index g : Nat} (room : Nat)
    (hrow : s.rows[index]? = some ⟨g, none⟩) (hfree : index ∉ s.free) :
    (s.occupy index (g + 1) room).Represents where
  vacant i hi := by
    have hne : index ≠ i := fun he => hfree (he ▸ hi)
    simpa [State.occupy, List.getElem?_set, hne] using hs.vacant i hi
  nodup := hs.nodup
  fair i row hi := by
    simp only [State.occupy, List.getElem?_set] at hi
    split at hi
    · split at hi
      · cases hi
        rintro channel ⟨⟩
        exact .nobody (Nat.zero_le room) (by simp)
      · cases hi
    · exact hs.fair i row hi
  payloads := by
    have hheld := sum_map_set Row.held ⟨g + 1, some ⟨room, false, [], []⟩⟩ hrow
    exact hs.payloads.trans hheld.symm
  waiters := by
    have hwaiting := sum_map_set Row.waiting ⟨g + 1, some ⟨room, false, [], []⟩⟩ hrow
    exact hs.waiters.trans hwaiting.symm

/-- The row that takes the next generation is one of the old rows or a new one. -/
theorem State.grows_occupy {index g room : Nat} (hrow : s.rows[index]? = some ⟨g, none⟩) :
    s.Grows (s.occupy index (g + 1) room) := by
  have hlt : index < s.rows.length := (List.getElem?_eq_some_iff.mp hrow).1
  intro i row hi
  by_cases hindex : index = i
  · subst hindex
    rw [hrow] at hi
    cases hi
    exact ⟨⟨g + 1, some ⟨room, false, [], []⟩⟩, by simp [State.occupy, hlt], Nat.le_succ g⟩
  · exact ⟨row, by simpa [State.occupy, List.getElem?_set, hindex] using hi, Nat.le_refl _⟩

/-- A handle that no earlier generation of its row had, and that its row has now. -/
def State.Opens (s : State P K) (handle : Handle) (s' : State P K) : Prop :=
  (∀ row, s.rows[handle.index]? = some row → row.generation < handle.generation) ∧
    ∃ row, s'.rows[handle.index]? = some row ∧ handle.generation ≤ row.generation

theorem State.opens_occupy {index g room : Nat} (hrow : s.rows[index]? = some ⟨g, none⟩) :
    s.Opens ⟨index, g + 1⟩ (s.occupy index (g + 1) room) := by
  have hlt : index < s.rows.length := (List.getElem?_eq_some_iff.mp hrow).1
  refine ⟨fun row hi => ?_, ⟨g + 1, some ⟨room, false, [], []⟩⟩, ?_, Nat.le_refl _⟩
  · rw [hrow] at hi
    cases hi
    exact Nat.lt_succ_self g
  · simp [State.occupy, hlt]

theorem State.Represents.open (hs : s.Represents) (room : Nat) :
    Kept s (s.open room) ∧
      ∀ handle, (s.open room).1 = .ok handle → s.Opens handle (s.open room).2 := by
  unfold State.open
  cases hlast : s.free.getLast? with
  | none =>
    simp only
    split_ifs with hlimit
    · exact ⟨.refused hs (by simp [budgetErrors]), by simp⟩
    · have hempty : s.free = [] := List.getLast?_eq_none_iff.mp hlast
      have hpushed : State.Represents { s with rows := s.rows ++ [⟨0, none⟩] } := by
        refine ⟨⟨by simp [hempty], hs.nodup⟩, fun i row hi => ?_, ?_, ?_⟩
        · rcases List.mem_append.mp (List.mem_of_getElem? hi) with hmem | hmem
          · obtain ⟨j, hj⟩ := List.mem_iff_getElem?.mp hmem
            exact hs.fair j row hj
          · obtain rfl := List.mem_singleton.mp hmem
            rintro channel ⟨⟩
        · simpa [State.held, Row.held] using hs.payloads
        · simpa [State.waiting, Row.waiting] using hs.waiters
      have hrow : (s.rows ++ [(⟨0, none⟩ : Row P K)])[s.rows.length]? = some ⟨0, none⟩ := by simp
      rw [State.openAt_vacant (s := { s with rows := s.rows ++ [⟨0, none⟩] }) hrow (by decide)]
      have hgrows := @State.grows_occupy P K { s with rows := s.rows ++ [⟨0, none⟩] }
        s.rows.length 0 room hrow
      refine ⟨⟨hpushed.occupy room hrow (by simp [hempty]), fun i row hi => ?_, by simp⟩, ?_⟩
      · refine hgrows i row ?_
        have hlt : i < s.rows.length := (List.getElem?_eq_some_iff.mp hi).1
        exact (List.getElem?_append_left hlt).trans hi
      · rintro _ ⟨⟩
        refine ⟨fun row hi => ?_, (State.opens_occupy hrow).2⟩
        simp at hi
  | some index =>
    have hsplit : s.free = s.free.dropLast ++ [index] :=
      (List.dropLast_append_getLast? index hlast).symm
    have hnodup := hs.nodup
    rw [hsplit, List.nodup_append] at hnodup
    obtain ⟨g, hrow, hg⟩ := hs.vacant index (by rw [hsplit]; simp)
    have hpopped : State.Represents { s with free := s.free.dropLast } :=
      ⟨⟨fun i hi => hs.vacant i (List.dropLast_subset _ hi), hnodup.1⟩, hs.fair, hs.payloads,
        hs.waiters⟩
    have hfree : index ∉ s.free.dropLast := fun hmem =>
      hnodup.2.2 index hmem index (by simp) rfl
    simp only
    rw [State.openAt_vacant (s := { s with free := s.free.dropLast }) hrow hg]
    refine ⟨⟨hpopped.occupy room hrow hfree, State.grows_occupy (s := { s with
      free := s.free.dropLast }) hrow, by simp⟩, ?_⟩
    rintro _ ⟨⟩
    exact State.opens_occupy (s := { s with free := s.free.dropLast }) hrow

/-! ## 4. Runs -/

/-- The handle a call gave out. -/
def Entry.opened (e : Entry P K) : Option Handle :=
  match e.reply with
  | .ok (.handle handle) => some handle
  | _ => none

/-- The handles a run gave out, in order. -/
def opened (es : List (Entry P K)) : List Handle := es.filterMap Entry.opened

theorem Entry.opened_eq_some {e : Entry P K} {handle : Handle} :
    e.opened = some handle ↔ e.reply = .ok (.handle handle) := by
  rcases e with ⟨before, op, err | t | handle'⟩
  · simp [Entry.opened]
  · simp [Entry.opened]
  · simp [Entry.opened]

theorem opened_concat (es : List (Entry P K)) (e : Entry P K) :
    opened (es ++ [e]) = opened es ++ e.opened.toList := by
  cases hhandle : e.opened with
  | none => simp [opened, hhandle]
  | some handle => simp [opened, hhandle]

/-- The result of a call under another name. -/
theorem Kept.map {α β : Type} {f : α → β} {r : Except KernelError α × State P K} (hr : Kept s r) :
    Kept s (r.1.map f, r.2) where
  represents := hr.represents
  grows := hr.grows
  failed err herr := by
    refine hr.failed err ?_
    cases hresult : r.1 with
    | error err' =>
      rw [hresult] at herr
      cases herr
      rfl
    | ok a =>
      rw [hresult] at herr
      cases herr

/-- **One call.** -/
theorem State.Represents.step (hs : s.Represents) (op : Op P K) :
    Kept s (s.step op) ∧
      ∀ handle, (s.step op).1 = .ok (.handle handle) → s.Opens handle (s.step op).2 := by
  have hmap : ∀ (r : Except KernelError (Transition P K)) (handle : Handle),
      r.map (Reply.transition (K := K)) ≠ .ok (.handle handle) := by
    intro r handle hr
    cases r <;> cases hr
  cases op with
  | «open» room =>
    obtain ⟨hkept, hopens⟩ := hs.open room
    refine ⟨hkept.map, fun handle hreply => hopens handle ?_⟩
    cases hresult : (s.open room).1 with
    | error err => simp [State.step, hresult, Except.map] at hreply
    | ok handle' => simpa [State.step, hresult, Except.map] using hreply
  | send h payload continuation =>
    exact ⟨(hs.send payload continuation).map, fun handle hreply => (hmap _ _ hreply).elim⟩
  | recv h continuation =>
    exact ⟨(hs.recv continuation).map, fun handle hreply => (hmap _ _ hreply).elim⟩
  | close h =>
    obtain ⟨hrep, hgrows⟩ := hs.close (h := h)
    refine ⟨⟨hrep, hgrows, fun err herr => ?_⟩, fun handle hreply => ?_⟩
    · simp [State.step] at herr
    · simp [State.step] at hreply

/-- A handle that was given out belongs to a row that has at least its generation. -/
def State.Gave (s : State P K) (handle : Handle) : Prop :=
  ∃ row, s.rows[handle.index]? = some row ∧ handle.generation ≤ row.generation

theorem State.Gave.grows {handle : Handle} (hgave : s.Gave handle) (hgrows : s.Grows s') :
    s'.Gave handle := by
  obtain ⟨row, hrow, hle⟩ := hgave
  obtain ⟨row', hrow', hle'⟩ := hgrows _ row hrow
  exact ⟨row', hrow', Nat.le_trans hle hle'⟩

/-- What holds at the end of a run, by induction on its last call. -/
theorem trace_represents (ops : List (Op P K)) :
    (trace ops).2.Represents ∧
      (∀ e ∈ (trace ops).1, ∀ err, e.reply = .error err →
        err ∈ budgetErrors ∧ e.after = e.before) ∧
      (opened (trace ops).1).Nodup ∧
      ∀ handle ∈ opened (trace ops).1, (trace ops).2.Gave handle := by
  induction ops using List.reverseRecOn with
  | nil => exact ⟨State.represents_default, by simp [trace], by simp [trace, opened],
      by simp [trace, opened]⟩
  | append_singleton ops op ih =>
    obtain ⟨hs, herrors, hnodup, hgave⟩ := ih
    obtain ⟨hkept, hopens⟩ := hs.step op
    rw [trace_concat]
    refine ⟨hkept.represents, ?_, ?_⟩
    · intro e he err herr
      rcases List.mem_append.mp he with he | he
      · exact herrors e he err herr
      · obtain rfl := List.mem_singleton.mp he
        exact hkept.failed err herr
    · have hold : ∀ handle ∈ opened (trace ops).1, ((trace ops).2.step op).2.Gave handle :=
        fun handle hmem => (hgave handle hmem).grows hkept.grows
      rw [opened_concat]
      cases hhandle : Entry.opened ⟨(trace ops).2, op, ((trace ops).2.step op).1⟩ with
      | none =>
        rw [Option.toList_none, List.append_nil]
        exact ⟨hnodup, hold⟩
      | some handle =>
        obtain ⟨hbefore, hafter⟩ := hopens handle (Entry.opened_eq_some.mp hhandle)
        have hnew : handle ∉ opened (trace ops).1 := by
          intro hmem
          obtain ⟨row, hrow, hle⟩ := hgave handle hmem
          exact Nat.not_lt.mpr hle (hbefore row hrow)
        rw [Option.toList_some, ← List.concat_eq_append]
        refine ⟨hnodup.concat hnew, fun handle' hmem => ?_⟩
        rw [List.concat_eq_append] at hmem
        rcases List.mem_append.mp hmem with hmem | hmem
        · exact hold handle' hmem
        · obtain rfl := List.mem_singleton.mp hmem
          exact hafter

/-- **The representation invariant.**  After every run from the default table the rows, the free
list and the counters agree (`State.Represents`), every call that failed had exhausted a budget
and changed nothing, no handle was given out twice, and the row a handle finds is the one whose
channel was looked at before. -/
theorem channels_represent (ops : List (Op P K)) :
    (trace ops).2.Represents ∧
      (∀ e ∈ (trace ops).1, ∀ err, e.reply = .error err →
        err ∈ budgetErrors ∧ e.after = e.before) ∧
      (opened (trace ops).1).Nodup ∧
      ∀ handle channel, (trace ops).2.channelAt handle = some channel →
        ∃ row, (trace ops).2.rows[handle.index]? = some row ∧ row.channel = some channel := by
  obtain ⟨hs, herrors, hnodup, -⟩ := trace_represents ops
  refine ⟨hs, herrors, hnodup, fun handle channel hat => ?_⟩
  exact ⟨_, State.channelAt_eq_some.mp hat, rfl⟩

end TeamyBend.Runtime.Channels
