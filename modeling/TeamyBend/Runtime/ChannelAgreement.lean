/-
# Both runtimes agree on channels

The rows of a generated program describe the channels of the interpreter: the ring of a row holds
the buffer in order from `head` on, its queue the waiting parties, and the chain the free rows in
the order in which the interpreter takes them.  Each call keeps this (`Agrees`), gives the same
answer and wakes the same tasks, so runs agree (`channels_generated`).

The interpreter never uses a row again whose generation cannot grow, and a generated program
ends when it comes to such a row.  Up to there the chain has the free rows, and the retired ones
between them.
-/
import TeamyBend.Runtime.ChannelRings

namespace TeamyBend.Runtime.Channels

open Library Library.RingBuffer

variable {P K : Type}

/-! ## 1. When the two agree -/

/-- A waiting party as the action it is. -/
def Waiter.act : Waiter P K → IoAct P K
  | Sender continuation payload => ⟨continuation, some payload⟩
  | Receiver continuation => ⟨continuation, none⟩

/-- **A row shows a channel**: its ring holds the buffer in order, from `head` on. -/
structure Shows (c : Channel P K) (row : ChanRow P K) : Prop where
  live : row.live = true
  room : row.room = c.room
  shut : row.shut = c.closed
  size : row.size = c.buffer.length
  ring : row.ring.length = c.room
  head : 0 < c.room → row.head < c.room
  holds : Holds row.ring row.head c.buffer
  wait : row.wait = c.wait.map Waiter.act

/-- The two rows of an index. -/
structure Mirrors (row : Row P K) (crow : ChanRow P K) : Prop where
  gen : crow.gen = row.generation
  bound : row.generation ≤ u32Max
  shows : ∀ c, row.channel = some c → Shows c crow
  vacant : row.channel = none → crow.live = false

/-- The chain of free rows from an index on. -/
def Chain (rows : List (ChanRow P K)) : Nat → List Nat → Prop
  | idle, [] => idle = u32Max
  | idle, i :: more => idle = i ∧ i ≠ u32Max ∧ ∃ row, rows[i]? = some row ∧ Chain rows row.next more

/-- A row that the interpreter uses again. -/
def State.reusable (s : State P K) (i : Nat) : Bool :=
  match s.rows[i]? with
  | some row => decide (row.generation < u32Max)
  | none => false

/-- The free rows of the two tables: the chain has those that the interpreter retires as well. -/
structure Chained (s : State P K) (s' : Rings P K) (chained : List Nat) : Prop where
  chain : Chain s'.rows s'.idle chained
  nodup : chained.Nodup
  vacant : ∀ i ∈ chained, ∃ g, s.rows[i]? = some ⟨g, none⟩
  free : s.free.reverse = chained.filter s.reusable

/-- The rows, the free rows, the parked tasks and the handles are the same. -/
structure Mirrored (s : State P K) (s' : Rings P K) (hs : List Handle) (hs' : List Nat) : Prop where
  limit : s.rows.length ≤ arenaLimit
  length : s'.rows.length = s.rows.length
  rows : ∀ (i : Nat) (row : Row P K), s.rows[i]? = some row →
    ∃ crow, s'.rows[i]? = some crow ∧ Mirrors row crow
  chain : ∃ chained, Chained s s' chained
  parked : s'.parked.Perm s.tasks
  handles : hs' = hs.map fun h => rawHandle h.generation h.index
  named : ∀ h ∈ hs, h.index < s.rows.length ∧ h.generation ≤ u32Max

/-- **The two tables agree.** -/
structure Agrees (s : State P K) (s' : Rings P K) (hs : List Handle) (hs' : List Nat) : Prop
    extends Mirrored s s' hs hs' where
  represents : s.Represents

theorem Chain.frame {rows rows' : List (ChanRow P K)} {chained : List Nat} {idle : Nat}
    (h : Chain rows idle chained) (hrows : ∀ i ∈ chained, rows'[i]? = rows[i]?) :
    Chain rows' idle chained := by
  induction chained generalizing idle with
  | nil => exact h
  | cons i more ih =>
    obtain ⟨hidle, hne, row, hrow, hmore⟩ := h
    refine ⟨hidle, hne, row, (hrows i List.mem_cons_self).trans hrow, ?_⟩
    exact ih hmore fun j hj => hrows j (List.mem_cons_of_mem i hj)

/-- Replacing a row exchanges the tasks it had for those it gets. -/
theorem tasks_set {rows : List (Row P K)} {i : Nat} {row : Row P K} (new : Row P K)
    (hrow : rows[i]? = some row) :
    ((rows.set i new).flatMap Row.tasks ++ row.tasks).Perm
      (rows.flatMap Row.tasks ++ new.tasks) := by
  induction rows generalizing i with
  | nil => simp at hrow
  | cons first rows ih =>
    cases i with
    | zero =>
      obtain rfl : first = row := by simpa using hrow
      simp only [List.set_cons_zero, List.flatMap_cons]
      refine List.perm_append_comm.trans ?_
      rw [List.append_assoc]
      exact List.perm_append_comm.append_left _
    | succ i =>
      simp only [List.set_cons_succ, List.flatMap_cons, List.append_assoc]
      exact (ih (by simpa using hrow)).append_left _

section Frame

variable {s t : State P K} {s' t' : Rings P K} {hs : List Handle} {hs' : List Nat} {h : Handle}
  {c : Channel P K}

theorem rawHandle_index {gen index : Nat} (hindex : index < 2 ^ 24) :
    rawHandle gen index &&& 0xffffff = index := by
  rw [rawHandle, ← Nat.shiftLeft_add_eq_or_of_lt hindex,
    show (0xffffff : Nat) = 2 ^ 24 - 1 from rfl, Nat.and_two_pow_sub_one_eq_mod,
    Nat.shiftLeft_eq]
  omega

theorem rawHandle_gen {gen index : Nat} (hgen : gen < 2 ^ 32) (hindex : index < 2 ^ 24) :
    (rawHandle gen index >>> 24) % 2 ^ 32 = gen := by
  rw [rawHandle, ← Nat.shiftLeft_add_eq_or_of_lt hindex, Nat.shiftRight_eq_div_pow,
    Nat.shiftLeft_eq]
  omega

/-- **A handle finds the same channel**, or none, in both tables. -/
theorem Agrees.chanAt (hagrees : Agrees s s' hs hs') (hh : h ∈ hs) :
    (s.channelAt h = none ∧ s'.chanAt (rawHandle h.generation h.index) = none) ∨
      ∃ c row, s.channelAt h = some c ∧
        s'.chanAt (rawHandle h.generation h.index) = some (h.index, row) ∧
        s'.rows[h.index]? = some row ∧ row.gen = h.generation ∧ h.generation ≤ u32Max ∧
        Shows c row := by
  obtain ⟨hindex, hgen⟩ := hagrees.named h hh
  have hlimit := hagrees.limit
  have hindex24 : h.index < 2 ^ 24 := by
    simp only [arenaLimit] at hlimit
    omega
  have hgen32 : h.generation < 2 ^ 32 := by
    simp only [u32Max] at hgen
    omega
  obtain ⟨row, hrow⟩ : ∃ row, s.rows[h.index]? = some row := ⟨_, List.getElem?_eq_getElem hindex⟩
  obtain ⟨crow, hcrow, hmirrors⟩ := hagrees.rows h.index row hrow
  simp only [State.channelAt, Rings.chanAt, rawHandle_index hindex24, rawHandle_gen hgen32 hindex24,
    hrow, hcrow, hmirrors.gen]
  by_cases hsame : row.generation = h.generation
  · cases hchannel : row.channel with
    | none => exact .inl (by simp [hmirrors.vacant hchannel])
    | some c =>
      have hshows := hmirrors.shows c hchannel
      exact .inr ⟨c, crow, by simp [hsame], by simp [hsame, hshows.live], rfl,
        hmirrors.gen.trans hsame, hgen, hshows⟩
  · exact .inl (by simp [hsame])

/-- What every call on a channel leaves in place. -/
theorem Agrees.rows_set (hagrees : Agrees s s' hs hs') (hat : s.channelAt h = some c)
    {channel : Option (Channel P K)} {crow : ChanRow P K}
    (hmirrors : Mirrors ⟨h.generation, channel⟩ crow)
    (hrows : t.rows = s.rows.set h.index ⟨h.generation, channel⟩)
    (hrows' : t'.rows = s'.rows.set h.index crow) :
    t.rows.length ≤ arenaLimit ∧ t'.rows.length = t.rows.length ∧
      (∀ (i : Nat) (row : Row P K), t.rows[i]? = some row →
        ∃ crow, t'.rows[i]? = some crow ∧ Mirrors row crow) ∧
      t.reusable = s.reusable := by
  have hrow := State.channelAt_eq_some.mp hat
  have hlt : h.index < s.rows.length := (List.getElem?_eq_some_iff.mp hrow).1
  have hlength := hagrees.length
  refine ⟨by rw [hrows, List.length_set]; exact hagrees.limit,
    by rw [hrows, hrows', List.length_set, List.length_set, hlength], fun i row hi => ?_,
    funext fun i => ?_⟩
  · rw [hrows] at hi
    rw [hrows']
    by_cases hindex : h.index = i
    · subst hindex
      rw [List.getElem?_set_self hlt] at hi
      cases hi
      exact ⟨crow, List.getElem?_set_self (by omega), hmirrors⟩
    · rw [List.getElem?_set_ne hindex] at hi ⊢
      exact hagrees.rows i row hi
  · rw [State.reusable, State.reusable, hrows]
    by_cases hindex : h.index = i
    · subst hindex
      rw [List.getElem?_set_self hlt, hrow]
    · rw [List.getElem?_set_ne hindex]

/-- A call that puts another channel behind a handle. -/
theorem Agrees.put (hagrees : Agrees s s' hs hs') (hat : s.channelAt h = some c)
    {d : Channel P K} {crow : ChanRow P K} (hshows : Shows d crow) (hgen : crow.gen = h.generation)
    (hbound : h.generation ≤ u32Max) (hrep : t.Represents)
    (hrows : t.rows = (s.setChannel h.index (some d)).rows) (hfree : t.free = s.free)
    (hrows' : t'.rows = s'.rows.set h.index crow) (hidle : t'.idle = s'.idle)
    (hparked : t'.parked.Perm t.tasks) : Agrees t t' hs hs' := by
  have hrow := State.channelAt_eq_some.mp hat
  rw [State.setChannel, modify_eq_set _ hrow] at hrows
  have hmirrors : Mirrors ⟨h.generation, some d⟩ crow :=
    ⟨hgen, hbound, (fun _ hc => by cases hc; exact hshows), (fun hc => by cases hc)⟩
  obtain ⟨hlimit, hlength, hall, hreusable⟩ := hagrees.rows_set hat hmirrors hrows hrows'
  obtain ⟨chained, hchain, hnodup, hvacant, hreverse⟩ := hagrees.chain
  have hout : ∀ i ∈ chained, h.index ≠ i := by
    rintro i hi rfl
    obtain ⟨g, hg⟩ := hvacant _ hi
    rw [hrow] at hg
    cases hg
  refine ⟨⟨hlimit, hlength, hall, ⟨chained, ?_, hnodup, fun i hi => ?_, ?_⟩, hparked,
    hagrees.handles, fun k hk => ?_⟩, hrep⟩
  · rw [hidle]
    exact hchain.frame fun i hi => by rw [hrows', List.getElem?_set_ne (hout i hi)]
  · rw [hrows, List.getElem?_set_ne (hout i hi)]
    exact hvacant i hi
  · rw [hfree, hreusable]
    exact hreverse
  · rw [hrows, List.length_set]
    exact hagrees.named k hk

/-- A call that frees a row. -/
theorem Agrees.retire (hagrees : Agrees s s' hs hs') (hat : s.channelAt h = some c)
    {crow : ChanRow P K} (hgen : crow.gen = h.generation) (hbound : h.generation ≤ u32Max)
    (hlive : crow.live = false) (hnext : crow.next = s'.idle) (hrep : t.Represents)
    (hrows : t.rows = (s.setChannel h.index none).rows)
    (hfree : t.free = if h.generation < u32Max then s.free ++ [h.index] else s.free)
    (hrows' : t'.rows = s'.rows.set h.index crow) (hidle : t'.idle = h.index)
    (hparked : t'.parked.Perm t.tasks) : Agrees t t' hs hs' := by
  have hrow := State.channelAt_eq_some.mp hat
  have hlt : h.index < s.rows.length := (List.getElem?_eq_some_iff.mp hrow).1
  have harena := hagrees.limit
  have hsame := hagrees.length
  simp only [arenaLimit] at harena
  rw [State.setChannel, modify_eq_set _ hrow] at hrows
  have hmirrors : Mirrors ⟨h.generation, none⟩ crow :=
    ⟨hgen, hbound, (fun _ hc => by cases hc), fun _ => hlive⟩
  obtain ⟨hlimit, hlength, hall, hreusable⟩ := hagrees.rows_set hat hmirrors hrows hrows'
  obtain ⟨chained, hchain, hnodup, hvacant, hreverse⟩ := hagrees.chain
  have hout : ∀ i ∈ chained, h.index ≠ i := by
    rintro i hi rfl
    obtain ⟨g, hg⟩ := hvacant _ hi
    rw [hrow] at hg
    cases hg
  have hnew : t'.rows[h.index]? = some crow := by
    rw [hrows']
    exact List.getElem?_set_self (by omega)
  refine ⟨⟨hlimit, hlength, hall, ⟨h.index :: chained, ?_, ?_, fun i hi => ?_, ?_⟩, hparked,
    hagrees.handles, fun k hk => ?_⟩, hrep⟩
  · refine ⟨hidle, ?_, crow, hnew, ?_⟩
    · simp only [u32Max]
      omega
    · rw [hnext]
      exact hchain.frame fun i hi => by rw [hrows', List.getElem?_set_ne (hout i hi)]
  · exact List.nodup_cons.mpr ⟨fun hmem => hout _ hmem rfl, hnodup⟩
  · rcases List.mem_cons.mp hi with rfl | hi
    · exact ⟨h.generation, by rw [hrows, List.getElem?_set_self hlt]⟩
    · rw [hrows, List.getElem?_set_ne (hout i hi)]
      exact hvacant i hi
  · have hhere : s.reusable h.index = decide (h.generation < u32Max) := by
      rw [State.reusable, hrow]
    rw [hfree, hreusable, List.filter_cons, hhere, ← hreverse]
    by_cases hless : h.generation < u32Max
    · rw [if_pos hless, decide_eq_true hless, if_pos rfl, List.reverse_append,
        List.reverse_singleton, List.singleton_append]
    · rw [if_neg hless, decide_eq_false hless, if_neg Bool.false_ne_true]
  · rw [hrows, List.length_set]
    exact hagrees.named k hk

/-! ## 2. Rows -/

variable {row : ChanRow P K} {payload : P}

/-- Other tasks wait. -/
theorem Shows.waiting (hshows : Shows c row) (wait : List (Waiter P K)) :
    Shows { c with wait } { row with wait := wait.map Waiter.act } :=
  { hshows with wait := rfl }

/-- A payload behind the last. -/
theorem Shows.push (hshows : Shows c row) (hroom : c.buffer.length < c.room) (payload : P) :
    Shows { c with buffer := c.buffer ++ [payload] }
      { row with
        ring := row.ring.set ((row.head + row.size) % row.room) (some payload)
        size := row.size + 1 } :=
  { hshows with
    size := by rw [hshows.size, List.length_append, List.length_singleton]
    ring := by rw [List.length_set, hshows.ring]
    holds := by
      rw [hshows.size, hshows.room, ← hshows.ring]
      exact hshows.holds.push (by rw [hshows.ring]; exact hroom) payload }

/-- The payload at the head. -/
theorem Shows.first (hshows : Shows c row) {buffer : List P}
    (hbuffer : c.buffer = payload :: buffer) (hroom : c.buffer.length ≤ c.room) :
    row.ring[row.head]? = some (some payload) := by
  have hholds := hshows.holds
  rw [hbuffer] at hholds hroom
  rw [List.length_cons] at hroom
  exact hholds.first (by rw [hshows.ring]; exact hshows.head (by omega))

/-- Without the payload at the head. -/
theorem Shows.pop (hshows : Shows c row) {buffer : List P} (hbuffer : c.buffer = payload :: buffer)
    (hroom : c.buffer.length ≤ c.room) :
    Shows { c with buffer }
      { row with
        ring := row.ring.set row.head none
        head := (row.head + 1) % row.room
        size := row.size - 1 } := by
  have hholds := hshows.holds
  rw [hbuffer] at hholds hroom
  rw [List.length_cons] at hroom
  have hpos : 0 < c.room := by omega
  exact
    { hshows with
      size := by
        simp only [hshows.size, hbuffer, List.length_cons, Nat.add_sub_cancel]
      ring := by rw [List.length_set, hshows.ring]
      head := fun _ => by
        rw [hshows.room]
        exact Nat.mod_lt _ hpos
      holds := by
        rw [hshows.room, ← hshows.ring]
        exact hholds.pop (by rw [hshows.ring]; exact hshows.head hpos) }

theorem Turn.wake_eq [DecidableEq K] {t : Turn P K} {action : IoAct P K}
    {wait : List (IoAct P K)} (hwait : t.row.wait = action :: wait) (value : Answer P) :
    t.wake value = .ok (action.item,
      { t with
        row := { t.row with wait }
        parked := t.parked.erase action.task
        wakes := t.wakes ++ [⟨action.task, value⟩] }) := by
  simp only [Turn.wake, hwait]

/-- What the first of the waiting is told at the end of a channel. -/
def IoAct.closing (action : IoAct P K) : Wake P K :=
  ⟨action.task, if action.item.isNone then .None else .Bool false⟩

/-- **All who wait are told the end**, in their order. -/
theorem Turn.wakeAll_eq [DecidableEq K] (wait : List (IoAct P K)) {t : Turn P K}
    (hwait : t.row.wait = wait) :
    Turn.wakeAll wait.length t = .ok
      { t with
        row := { t.row with wait := [] }
        parked := (wait.map IoAct.task).foldl List.erase t.parked
        wakes := t.wakes ++ wait.map IoAct.closing } := by
  induction wait generalizing t with
  | nil =>
    obtain ⟨row, idle, parked, wakes⟩ := t
    obtain ⟨gen, next, room, size, head, live, shut, ring, wait⟩ := row
    simp only at hwait
    subst hwait
    simp [Turn.wakeAll]
  | cons action wait ih =>
    rw [List.length_cons, Turn.wakeAll, hwait]
    simp only [Turn.wake_eq hwait, bind, Except.bind]
    rw [ih rfl]
    simp [IoAct.closing]

theorem closing_act (w : Waiter P K) : w.act.closing = State.closeWake w := by
  cases w with
  | Sender continuation payload => rfl
  | Receiver continuation => rfl

theorem task_act (w : Waiter P K) : w.act.task = w.task := by
  cases w with
  | Sender continuation payload => rfl
  | Receiver continuation => rfl

/-- The tasks after a call, beside those that waited at its channel before. -/
theorem tasks_put {channel : Option (Channel P K)} (hat : s.channelAt h = some c)
    (hrows : t.rows = (s.setChannel h.index channel).rows) :
    (t.tasks ++ c.wait.map Waiter.task).Perm (s.tasks ++ Row.tasks ⟨h.generation, channel⟩) := by
  have hrow := State.channelAt_eq_some.mp hat
  rw [State.setChannel, modify_eq_set _ hrow] at hrows
  rw [State.tasks, State.tasks, hrows]
  exact tasks_set ⟨h.generation, channel⟩ hrow

/-- One who waited is woken. -/
theorem parked_wake [DecidableEq K] {parked before after rest : List K} {task : K}
    (hparked : parked.Perm before) (htasks : (after ++ task :: rest).Perm (before ++ rest)) :
    (parked.erase task).Perm after := by
  have hcons : (task :: after ++ rest).Perm (before ++ rest) := List.perm_middle.symm.trans htasks
  have hsame : (task :: after).Perm before := (List.perm_append_right_iff rest).mp hcons
  have herase := (hparked.trans hsame.symm).erase task
  rwa [List.erase_cons_head] at herase

/-- All who waited are woken. -/
theorem parked_wakeAll [DecidableEq K] {parked after tasks : List K}
    (hparked : parked.Perm (after ++ tasks)) : (tasks.foldl List.erase parked).Perm after := by
  induction tasks generalizing parked with
  | nil => rwa [List.append_nil] at hparked
  | cons task tasks ih =>
    refine ih ?_
    have herase := (hparked.trans List.perm_middle).erase task
    rwa [List.erase_cons_head] at herase

/-! ## 3. Calls -/

/-- The buffer is another, and the same tasks wait. -/
theorem Agrees.refill (hagrees : Agrees s s' hs hs') (hat : s.channelAt h = some c)
    {d : Channel P K} (hshows : Shows d row) (hgen : row.gen = h.generation)
    (hbound : h.generation ≤ u32Max) (hwait : d.wait = c.wait) (hrep : t.Represents)
    (hrows : t.rows = (s.setChannel h.index (some d)).rows) (hfree : t.free = s.free) :
    Agrees t ⟨s'.rows.set h.index row, s'.idle, s'.parked⟩ hs hs' := by
  have htasks := tasks_put hat hrows
  simp only [Row.tasks, hwait] at htasks
  exact hagrees.put hat hshows hgen hbound hrep hrows hfree rfl rfl
    (hagrees.parked.trans ((List.perm_append_right_iff _).mp htasks).symm)

/-- Whom a row serves first. -/
theorem Shows.hasReceiver (hshows : Shows c row) :
    row.wait.head?.any (·.item.isNone) = c.hasReceiver := by
  rw [hshows.wait, Channel.hasReceiver]
  rcases c.wait with _ | ⟨_ | _, wait⟩
  · rfl
  · rfl
  · rfl

theorem Shows.hasSender (hshows : Shows c row) :
    row.wait.head?.any (·.item.isSome) = c.hasSender := by
  rw [hshows.wait, Channel.hasSender]
  rcases c.wait with _ | ⟨_ | _, wait⟩
  · rfl
  · rfl
  · rfl

theorem Channel.hasReceiver_cases (hreceiver : c.hasReceiver = true) :
    ∃ receiver wait, c.wait = .Receiver receiver :: wait := by
  simp only [Channel.hasReceiver] at hreceiver
  rcases hwait : c.wait with _ | ⟨_ | receiver, wait⟩
  · simp [hwait] at hreceiver
  · simp [hwait] at hreceiver
  · exact ⟨receiver, wait, rfl⟩

theorem Channel.hasSender_cases (hsender : c.hasSender = true) :
    ∃ sender payload wait, c.wait = .Sender sender payload :: wait := by
  simp only [Channel.hasSender] at hsender
  rcases hwait : c.wait with _ | ⟨⟨sender, payload⟩ | _, wait⟩
  · simp [hwait] at hsender
  · exact ⟨sender, payload, wait, rfl⟩
  · simp [hwait] at hsender

variable [DecidableEq K] {task : K} {a : Transition P K}

/-- A task is parked at the end of the queue. -/
theorem Agrees.park (hagrees : Agrees s s' hs hs') (hat : s.channelAt h = some c)
    (hgen : row.gen = h.generation)
    (hbound : h.generation ≤ u32Max) (hshows : Shows c row) (w : Waiter P K)
    (hfree : w.task ∉ s.tasks) (hrep : t.Represents)
    (hrows : t.rows = (s.setChannel h.index (some { c with wait := c.wait ++ [w] })).rows)
    (hsame : t.free = s.free) :
    ∃ turn, (s'.turn row).park w.task w.act.item = .ok turn ∧ turn.wakes = [] ∧
      Agrees t ⟨s'.rows.set h.index turn.row, turn.idle, turn.parked⟩ hs hs' := by
  have hnew : w.task ∉ s'.parked := fun hmem => hfree (hagrees.parked.mem_iff.mp hmem)
  refine ⟨_, if_neg hnew, rfl, ?_⟩
  have hact : (⟨w.task, w.act.item⟩ : IoAct P K) = w.act := by cases w <;> rfl
  have hshown : Shows { c with wait := c.wait ++ [w] }
      { row with wait := row.wait ++ [⟨w.task, w.act.item⟩] } := by
    have hwaiting := hshows.waiting (c.wait ++ [w])
    rwa [List.map_append, List.map_singleton, ← hshows.wait, ← hact] at hwaiting
  have htasks := tasks_put hat hrows
  simp only [Row.tasks, List.map_append, List.map_singleton] at htasks
  have hperm : (w.task :: s.tasks).Perm t.tasks := by
    have hmove : (s.tasks ++ (c.wait.map Waiter.task ++ [w.task])).Perm
        (w.task :: s.tasks ++ c.wait.map Waiter.task) := by
      rw [← List.append_assoc]
      exact List.perm_append_singleton _ _
    exact ((List.perm_append_right_iff _).mp (htasks.trans hmove)).symm
  exact hagrees.put hat hshown hgen hbound hrep hrows hsame rfl rfl
    ((hagrees.parked.cons w.task).trans hperm)

/-- The first who waits is woken. -/
theorem Agrees.wake (hagrees : Agrees s s' hs hs') (hat : s.channelAt h = some c)
    {d : Channel P K} (hshows : Shows d row) (hgen : row.gen = h.generation)
    (hbound : h.generation ≤ u32Max) {w : Waiter P K} (hwait : c.wait = w :: d.wait)
    (hrep : t.Represents) (hrows : t.rows = (s.setChannel h.index (some d)).rows)
    (hfree : t.free = s.free) :
    Agrees t ⟨s'.rows.set h.index row, s'.idle, s'.parked.erase w.task⟩ hs hs' := by
  have htasks := tasks_put hat hrows
  rw [hwait, List.map_cons] at htasks
  exact hagrees.put hat hshows hgen hbound hrep hrows hfree rfl rfl
    (parked_wake hagrees.parked htasks)

/-- **Sending agrees**: both tables answer alike and agree afterwards. -/
theorem Agrees.send (hagrees : Agrees s s' hs hs') (hh : h ∈ hs) (hfree : task ∉ s.tasks)
    (hsend : s.send h payload task = (.ok a, t)) :
    ∃ t', s'.send (rawHandle h.generation h.index) payload task = .ok (a, t') ∧
      Agrees t t' hs hs' := by
  have hrep : t.Represents := by
    have hkept := (hagrees.represents.send (h := h) payload task).represents
    rwa [hsend] at hkept
  rcases hagrees.chanAt hh with ⟨hat, hat'⟩ | ⟨c, row, hat, hat', hrow', hgen, hbound, hshows⟩
  · simp only [State.send, hat] at hsend
    cases hsend
    exact ⟨s', by simp only [Rings.send, hat']; rfl, hagrees⟩
  simp only [State.send, hat] at hsend
  simp only [Rings.send, hat', hshows.shut, hshows.hasReceiver, hshows.size, hshows.room]
  split_ifs at hsend with hclosed hpayloads hwaiters hreceiver hbuffer
  · cases hsend
    rw [if_pos hclosed]
    exact ⟨s', rfl, hagrees⟩
  · cases hsend
  · cases hsend
  · -- the first waiting receiver is handed the payload
    rw [if_neg hclosed, if_pos hreceiver]
    obtain ⟨receiver, wait, hwait⟩ := Channel.hasReceiver_cases hreceiver
    simp only [hwait] at hsend
    have hwait' : (s'.turn row).row.wait = ⟨receiver, none⟩ :: wait.map Waiter.act := by
      rw [Rings.turn, hshows.wait, hwait]
      rfl
    rw [Turn.wake_eq hwait']
    cases hsend
    exact ⟨_, rfl, hagrees.wake hat (hshows.waiting wait) hgen hbound hwait hrep rfl rfl⟩
  · rw [if_neg hclosed, if_neg hreceiver, if_pos (of_decide_eq_true hbuffer)]
    cases hsend
    have hpush := hshows.push (of_decide_eq_true hbuffer) payload
    exact ⟨_, rfl, hagrees.refill hat hpush hgen hbound rfl hrep rfl rfl⟩
  · rw [if_neg hclosed, if_neg hreceiver, if_neg (fun hroom => hbuffer (decide_eq_true hroom))]
    cases hsend
    obtain ⟨turn, hturn, hwakes, hagrees'⟩ := hagrees.park hat hgen hbound hshows
      (.Sender task payload) hfree hrep rfl rfl
    simp only [Waiter.task, Waiter.act] at hturn
    rw [hturn]
    refine ⟨_, ?_, hagrees'⟩
    change Except.ok (s'.finish h.index .Parked turn) = _
    rw [Rings.finish, hwakes]
    rfl

/-- The row after the first payload was taken. -/
def ChanRow.popped (row : ChanRow P K) : ChanRow P K :=
  { row with
    ring := row.ring.set row.head none
    head := (row.head + 1) % row.room
    size := row.size - 1 }

theorem Turn.take_nobody {turn : Turn P K}
    (hfirst : turn.row.ring[turn.row.head]? = some (some payload)) (hwait : turn.row.wait = []) :
    turn.take = .ok (payload, { turn with row := turn.row.popped }) := by
  simp only [Turn.take, hfirst, ChanRow.popped]
  rw [hwait]
  rfl

theorem Turn.take_sender {turn : Turn P K} {action : IoAct P K} {wait : List (IoAct P K)}
    (hfirst : turn.row.ring[turn.row.head]? = some (some payload))
    (hwait : turn.row.wait = action :: wait) :
    turn.take = .ok (payload, Turn.put
      { turn with
        row := { turn.row.popped with wait }
        parked := turn.parked.erase action.task
        wakes := turn.wakes ++ [⟨action.task, .Bool true⟩] } action.item) := by
  simp only [Turn.take, hfirst, hwait]
  rfl

/-- A row is freed; the tasks that waited are woken. -/
theorem Agrees.release (hagrees : Agrees s s' hs hs') (hat : s.channelAt h = some c)
    {d : Channel P K} {payloads waiters : Nat} {turn : Turn P K}
    (hgen : turn.row.gen = h.generation) (hbound : h.generation ≤ u32Max)
    (hidle : turn.idle = s'.idle)
    (hparked : turn.parked = (c.wait.map Waiter.task).foldl List.erase s'.parked)
    (hrep : State.Represents
      (State.release { s.setChannel h.index (some d) with payloads, waiters } h.index)) :
    Agrees (State.release { s.setChannel h.index (some d) with payloads, waiters } h.index)
      ⟨s'.rows.set h.index (turn.free h.index).row, (turn.free h.index).idle,
        (turn.free h.index).parked⟩ hs hs' := by
  have hrow := State.channelAt_eq_some.mp hat
  have hrows := (State.rows_release { s.setChannel h.index (some d) with payloads, waiters }
    h.index).trans (State.rows_modify_twice s h.index payloads waiters (some d) none)
  have hfree : (State.release { s.setChannel h.index (some d) with payloads, waiters }
      h.index).free = if h.generation < u32Max then s.free ++ [h.index] else s.free := by
    simp only [State.release, State.setChannel, List.getElem?_modify, hrow]
    simp only [if_true, Option.map_eq_map, Option.map_some]
    split
    · rfl
    · rfl
  have htasks := tasks_put hat hrows
  simp only [Row.tasks, List.append_nil] at htasks
  have hgen' : (turn.free h.index).row.gen = h.generation := hgen
  refine hagrees.retire hat hgen' hbound rfl hidle hrep hrows hfree rfl rfl ?_
  rw [Turn.free, hparked]
  exact parked_wakeAll (hagrees.parked.trans htasks.symm)

/-- **Receiving agrees**: both tables answer alike, also where a waiting sender refills the ring. -/
theorem Agrees.recv (hagrees : Agrees s s' hs hs') (hh : h ∈ hs) (hfree : task ∉ s.tasks)
    (hrecv : s.recv h task = (.ok a, t)) :
    ∃ t', s'.recv (rawHandle h.generation h.index) task = .ok (a, t') ∧ Agrees t t' hs hs' := by
  have hrep : t.Represents := by
    have hkept := (hagrees.represents.recv (h := h) task).represents
    rwa [hrecv] at hkept
  rcases hagrees.chanAt hh with ⟨hat, hat'⟩ | ⟨c, row, hat, hat', hrow', hgen, hbound, hshows⟩
  · simp only [State.recv, hat] at hrecv
    cases hrecv
    exact ⟨s', by simp only [Rings.recv, hat']; rfl, hagrees⟩
  have hfair := hagrees.represents.fairAt hat
  simp only [State.recv, hat] at hrecv
  simp only [Rings.recv, hat', hshows.shut, hshows.hasSender, hshows.size]
  split at hrecv
  · cases hrecv
  cases hbuffer : c.buffer with
  | cons payload buffer =>
    have hfirst := hshows.first hbuffer hfair.bounded
    have hpop := hshows.pop hbuffer hfair.bounded
    rw [hbuffer] at hrecv
    rw [List.length_cons, if_pos (Nat.succ_ne_zero _)]
    cases hwait : c.wait with
    | nil =>
      have hwait' : (s'.turn row).row.wait = [] := by
        rw [Rings.turn, hshows.wait, hwait, List.map_nil]
      have hdone : ((s'.turn row).row.popped.shut = true ∧ (s'.turn row).row.popped.size = 0) ↔
          (c.closed && buffer.isEmpty) = true := by
        have hsize : row.popped.size = buffer.length := hpop.size
        have hshut : row.popped.shut = c.closed := hpop.shut
        simp [Rings.turn, hshut, hsize, List.isEmpty_iff]
      rw [Turn.take_nobody hfirst hwait']
      simp only [hwait, State.releaseIfDone] at hrecv
      simp only [bind, Except.bind, pure, Except.pure]
      by_cases hlast : (c.closed && buffer.isEmpty) = true
      · rw [if_pos hlast] at hrecv
        rw [if_pos (hdone.mpr hlast)]
        cases hrecv
        exact ⟨_, rfl, hagrees.release hat hgen hbound rfl (by rw [hwait]; rfl) hrep⟩
      · rw [if_neg hlast] at hrecv
        rw [if_neg (fun h => hlast (hdone.mp h))]
        cases hrecv
        exact ⟨_, rfl, hagrees.refill hat hpop hgen hbound rfl hrep (by simp only [hwait]) rfl⟩
    | cons w wait =>
      obtain ⟨hkind, hopen⟩ := hfair.first_sender hbuffer hwait
      cases w with
      | Receiver receiver => cases hkind
      | Sender sender waiting =>
        have hwait' : (s'.turn row).row.wait = ⟨sender, some waiting⟩ :: wait.map Waiter.act := by
          rw [Rings.turn, hshows.wait, hwait]
          rfl
        have hroom : buffer.length < c.room := by
          have hbounded := hfair.bounded
          rw [hbuffer, List.length_cons] at hbounded
          omega
        have hpush := (hpop.waiting wait).push hroom waiting
        rw [Turn.take_sender hfirst hwait']
        simp only [hwait, hopen, State.releaseIfDone, Bool.false_and, Bool.false_eq_true, if_false]
          at hrecv
        simp only [bind, Except.bind, pure, Except.pure]
        have hshut : row.shut = false := hshows.shut.trans hopen
        rw [if_neg (fun h => Bool.noConfusion (hshut.symm.trans h.1))]
        cases hrecv
        exact ⟨_, rfl, hagrees.wake hat hpush hgen hbound hwait hrep (by simp only [hopen]) rfl⟩
  | nil =>
    rw [hbuffer] at hrecv
    rw [List.length_nil, if_neg (fun h => h rfl)]
    cases hsender : c.hasSender with
    | true =>
      obtain ⟨sender, payload, wait, hwait⟩ := Channel.hasSender_cases hsender
      have hwait' : (s'.turn row).row.wait = ⟨sender, some payload⟩ :: wait.map Waiter.act := by
        rw [Rings.turn, hshows.wait, hwait]
        rfl
      rw [if_pos rfl, Turn.wake_eq hwait']
      simp only [hsender, if_true, hwait] at hrecv
      cases hrecv
      have hshown := hshows.waiting wait
      exact ⟨_, rfl, hagrees.wake hat hshown hgen hbound hwait hrep (by rw [hbuffer]) rfl⟩
    | false =>
      have hclosed : c.closed = false := by
        cases hclosed : c.closed with
        | false => rfl
        | true => exact absurd hbuffer (hfair.closed hclosed).2
      rw [hsender, hclosed] at hrecv
      simp only [Bool.false_eq_true, if_false] at hrecv
      cases hrecv
      rw [if_neg Bool.false_ne_true, hclosed, if_neg Bool.false_ne_true]
      obtain ⟨turn, hturn, hwakes, hagrees'⟩ := hagrees.park hat hgen hbound hshows
        (.Receiver task) hfree hrep (by rw [hbuffer, hclosed]) rfl
      simp only [Waiter.task, Waiter.act] at hturn
      rw [hturn]
      refine ⟨_, ?_, hagrees'⟩
      change Except.ok (s'.finish h.index .Parked turn) = _
      rw [Rings.finish, hwakes]
      rfl

/-- **Closing agrees**: both tables wake the same waiters with the same answers. -/
theorem Agrees.close (hagrees : Agrees s s' hs hs') (hh : h ∈ hs)
    (hclose : s.close h = (a, t)) :
    ∃ t', s'.close (rawHandle h.generation h.index) = .ok (a, t') ∧ Agrees t t' hs hs' := by
  have hrep : t.Represents := by
    have hkept := (hagrees.represents.close (h := h)).1
    rwa [hclose] at hkept
  rcases hagrees.chanAt hh with ⟨hat, hat'⟩ | ⟨c, row, hat, hat', hrow', hgen, hbound, hshows⟩
  · simp only [State.close, hat] at hclose
    cases hclose
    exact ⟨s', by simp only [Rings.close, hat']; rfl, hagrees⟩
  have hfair := hagrees.represents.fairAt hat
  have hshut : Turn.wakeAll (s'.turn row).row.wait.length
      { s'.turn row with row := { (s'.turn row).row with shut := true } } = .ok
        { s'.turn row with
          row := { row with shut := true, wait := [] }
          parked := (c.wait.map Waiter.task).foldl List.erase s'.parked
          wakes := c.wait.map State.closeWake } := by
    have hwait : (s'.turn row).row.wait = c.wait.map Waiter.act := hshows.wait
    rw [Turn.wakeAll_eq (t := { s'.turn row with row := { (s'.turn row).row with shut := true } }) _
      rfl, hwait, List.map_map, List.map_map]
    have htasks : IoAct.task ∘ Waiter.act = (Waiter.task : Waiter P K → K) := funext task_act
    have hclosing : IoAct.closing ∘ Waiter.act = (State.closeWake : Waiter P K → Wake P K) :=
      funext closing_act
    rw [htasks, hclosing]
    rfl
  simp only [State.close, hat] at hclose
  have hsize : row.size = 0 ↔ c.buffer = [] := by rw [hshows.size, List.length_eq_zero_iff]
  simp only [Rings.close, hat', Turn.shut, hshut, bind, Except.bind, pure, Except.pure]
  split_ifs at hclose with hclosed hempty
  · -- a closed channel has something buffered and nobody waiting
    obtain ⟨hnobody, hbuffer⟩ := hfair.closed hclosed
    cases hclose
    rw [if_neg (fun h => hbuffer (hsize.mp h))]
    have hwait' : row.wait = [] := by rw [hshows.wait, hnobody, List.map_nil]
    have hsame : ({ row with shut := true, wait := [] } : ChanRow P K) = row := by
      have hshut' : row.shut = true := hshows.shut.trans hclosed
      rw [← hshut', ← hwait']
    obtain ⟨hlt, hrow⟩ := List.getElem?_eq_some_iff.mp hrow'
    refine ⟨s', ?_, hagrees⟩
    simp only [Rings.finish, hnobody, List.map_nil, List.foldl_nil, hsame]
    rw [← hrow, List.set_getElem_self]
    rfl
  · cases hclose
    rw [if_pos (hsize.mpr (List.isEmpty_iff.mp hempty))]
    exact ⟨_, rfl, hagrees.release hat hgen hbound rfl rfl hrep⟩
  · rw [if_neg (fun h => hempty (List.isEmpty_iff.mpr (hsize.mp h)))]
    have hshown := hshows.waiting []
    have hclosing : Shows ({ c with closed := true, wait := [] } : Channel P K)
        { row with shut := true, wait := [] } := { hshown with shut := rfl }
    have hrows : t.rows =
        (s.setChannel h.index (some { c with closed := true, wait := [] })).rows := by
      cases hclose
      rfl
    have htasks := tasks_put hat hrows
    simp only [Row.tasks, List.map_nil, List.append_nil] at htasks
    cases hclose
    exact ⟨_, rfl, hagrees.put hat hclosing hgen hbound hrep rfl rfl rfl rfl
      (parked_wakeAll (hagrees.parked.trans htasks.symm))⟩

end Frame

/-! ## 4. Opening -/

section Open

variable {s : State P K} {s' : Rings P K} {hs : List Handle} {hs' : List Nat} {index g : Nat}

theorem shows_opened (row : ChanRow P K) (room : Nat) :
    Shows ⟨room, false, [], []⟩ (row.opened g room) where
  live := rfl
  room := rfl
  shut := rfl
  size := rfl
  ring := List.length_replicate
  head hroom := hroom
  holds := .nil _ _
  wait := rfl

/-- A vacant row takes its next generation in both tables. -/
theorem Mirrored.occupy (hm : Mirrored s s' hs hs') {chained : List Nat}
    (hchained : Chained s s' chained) (hout : index ∉ chained)
    (hrow : s.rows[index]? = some ⟨g, none⟩) (hg : g < u32Max) (room : Nat) :
    ∃ t', s'.occupy index room = .ok (rawHandle (g + 1) index, t') ∧
      Mirrored (s.occupy index (g + 1) room) t' (hs ++ [⟨index, g + 1⟩])
        (hs' ++ [rawHandle (g + 1) index]) := by
  obtain ⟨crow, hcrow, hmirrors⟩ := hm.rows index _ hrow
  have hlt : index < s.rows.length := (List.getElem?_eq_some_iff.mp hrow).1
  have hlt' : index < s'.rows.length := (List.getElem?_eq_some_iff.mp hcrow).1
  have hgen : crow.gen = g := hmirrors.gen
  have hopened : s'.occupy index room = .ok (rawHandle (g + 1) index,
      { s' with rows := s'.rows.set index (crow.opened (g + 1) room) }) := by
    simp only [Rings.occupy, hcrow, hgen, if_neg (Nat.ne_of_lt hg)]
  refine ⟨_, hopened, ?_⟩
  have hother : ∀ i ∈ chained, index ≠ i := fun i hi he => hout (he ▸ hi)
  have hreusable : ∀ i ∈ chained, (s.occupy index (g + 1) room).reusable i = s.reusable i := by
    intro i hi
    simp only [State.reusable, State.occupy, List.getElem?_set_ne (hother i hi)]
  have htasks := tasks_set ⟨g + 1, some ⟨room, false, [], []⟩⟩ hrow
  simp only [Row.tasks, List.map_nil, List.append_nil] at htasks
  refine ⟨?_, ?_, fun i row hi => ?_, ⟨chained, ?_, hchained.nodup, fun i hi => ?_, ?_⟩,
    hm.parked.trans htasks.symm, ?_, fun k hk => ?_⟩
  · simpa [State.occupy] using hm.limit
  · simpa [State.occupy] using hm.length
  · simp only [State.occupy] at hi
    by_cases hindex : index = i
    · subst hindex
      rw [List.getElem?_set_self hlt] at hi
      cases hi
      refine ⟨_, List.getElem?_set_self hlt', rfl, hg, fun c hc => ?_, (fun hc => by cases hc)⟩
      cases hc
      exact shows_opened crow room
    · rw [List.getElem?_set_ne hindex] at hi ⊢
      exact hm.rows i row hi
  · exact hchained.chain.frame fun i hi => List.getElem?_set_ne (hother i hi)
  · simp only [State.occupy, List.getElem?_set_ne (hother i hi)]
    exact hchained.vacant i hi
  · rw [List.filter_congr hreusable]
    exact hchained.free
  · rw [hm.handles, List.map_append, List.map_singleton]
  · simp only [State.occupy, List.length_set]
    rcases List.mem_append.mp hk with hk | hk
    · exact hm.named k hk
    · rw [List.mem_singleton.mp hk]
      exact ⟨hlt, hg⟩

/-- A new row at the end of both tables. -/
theorem Mirrored.grow (hm : Mirrored s s' hs hs') {chained : List Nat}
    (hchained : Chained s s' chained) (hroom : s.rows.length < arenaLimit) :
    Mirrored { s with rows := s.rows ++ [⟨0, none⟩] }
        { s' with rows := s'.rows ++ [Rings.blankRow] } hs hs' ∧
      Chained { s with rows := s.rows ++ [⟨0, none⟩] }
        { s' with rows := s'.rows ++ [Rings.blankRow] } chained := by
  have hlength := hm.length
  have hold : ∀ i ∈ chained, i < s.rows.length := fun i hi => by
    obtain ⟨g, hg⟩ := hchained.vacant i hi
    exact (List.getElem?_eq_some_iff.mp hg).1
  have hfree : Chained { s with rows := s.rows ++ [⟨0, none⟩] }
      { s' with rows := s'.rows ++ [Rings.blankRow] } chained := by
    refine ⟨?_, hchained.nodup, fun i hi => ?_, ?_⟩
    · refine hchained.chain.frame fun i hi => List.getElem?_append_left ?_
      rw [hlength]
      exact hold i hi
    · rw [List.getElem?_append_left (hold i hi)]
      exact hchained.vacant i hi
    · refine hchained.free.trans (List.filter_congr fun i hi => ?_)
      simp only [State.reusable, List.getElem?_append_left (hold i hi)]
  refine ⟨⟨?_, ?_, fun i row hi => ?_, ⟨chained, hfree⟩, ?_, hm.handles, fun k hk => ?_⟩, hfree⟩
  · rw [List.length_append, List.length_singleton]
    exact hroom
  · rw [List.length_append, List.length_append, hlength]
    rfl
  · rcases Nat.lt_or_ge i s.rows.length with hlt | hge
    · rw [List.getElem?_append_left hlt] at hi
      rw [List.getElem?_append_left (by omega)]
      exact hm.rows i row hi
    · rw [List.getElem?_append_right hge] at hi
      obtain ⟨hzero, hrow⟩ := List.getElem?_eq_some_iff.mp hi
      rw [List.length_singleton] at hzero
      have hi' : i = s.rows.length := by omega
      subst hi'
      have hrow' : row = ⟨0, none⟩ := by simpa using hrow.symm
      subst hrow'
      refine ⟨Rings.blankRow, ?_, rfl, Nat.zero_le _, (fun c hc => by cases hc), fun _ => rfl⟩
      rw [← hlength]
      exact List.getElem?_concat_length
  · have hsame : State.tasks { s with rows := s.rows ++ [⟨0, none⟩] } = s.tasks := by
      simp [State.tasks, Row.tasks]
    rw [hsame]
    exact hm.parked
  · have hk' := hm.named k hk
    rw [List.length_append, List.length_singleton]
    exact ⟨by omega, hk'.2⟩

/-- A row of the chain is taken off it. -/
theorem Mirrored.unchain (hm : Mirrored s s' hs hs') {more : List Nat} {crow : ChanRow P K}
    (hchained : Chained s s' (index :: more)) (hcrow : s'.rows[index]? = some crow)
    (hreusable : s.reusable index = true) :
    s.free.getLast? = some index ∧
      Mirrored { s with free := s.free.dropLast } { s' with idle := crow.next } hs hs' ∧
      Chained { s with free := s.free.dropLast } { s' with idle := crow.next } more := by
  obtain ⟨-, -, row, hrow, hmore⟩ := hchained.chain
  rw [hcrow] at hrow
  cases hrow
  have hreverse := hchained.free
  rw [List.filter_cons_of_pos hreusable] at hreverse
  have hfree : s.free = (more.filter s.reusable).reverse ++ [index] := by
    rw [← List.reverse_cons, ← hreverse, List.reverse_reverse]
  have hrest : Chained { s with free := s.free.dropLast } { s' with idle := crow.next } more := by
    refine ⟨hmore, (List.nodup_cons.mp hchained.nodup).2,
      fun i hi => hchained.vacant i (List.mem_cons_of_mem _ hi), ?_⟩
    rw [hfree, List.dropLast_concat, List.reverse_reverse]
    rfl
  exact ⟨by rw [hfree, List.getLast?_concat],
    ⟨hm.limit, hm.length, hm.rows, ⟨more, hrest⟩, hm.parked, hm.handles, hm.named⟩, hrest⟩

/-- **A limit of a generated program is reached**: a channel of more places than there may be, or a
free row in front whose generation cannot grow. -/
inductive Rings.Exhausted (s : Rings P K) (room : Nat) : Fault → Prop
  | capacity (hroom : bendMaxActions < room) :
    Exhausted s room (.Fail "channel capacity budget exhausted")
  | generation {row : ChanRow P K} (hrow : s.rows[s.idle]? = some row) (hgen : row.gen = u32Max) :
    Exhausted s room (.Fail "channel generation exhausted")

/-- A row of the chain that the interpreter has retired ends the program. -/
theorem Rings.open_retired (hm : Mirrored s s' hs hs') {chained : List Nat}
    (hchained : Chained s s' chained) {more : List Nat} (hfirst : chained = index :: more)
    (hreusable : s.reusable index = false) {room : Nat} (hroom : ¬ bendMaxActions < room) :
    s'.open room = .error (.Fail "channel generation exhausted") ∧
      s'.Exhausted room (.Fail "channel generation exhausted") := by
  subst hfirst
  obtain ⟨hidle, hne, crow, hcrow, -⟩ := hchained.chain
  obtain ⟨g, hrow⟩ := hchained.vacant index List.mem_cons_self
  obtain ⟨crow', hcrow', hmirrors⟩ := hm.rows index _ hrow
  rw [hcrow] at hcrow'
  cases hcrow'
  simp only [State.reusable, hrow, decide_eq_false_iff_not] at hreusable
  have hbound : g ≤ u32Max := hmirrors.bound
  have hgen : crow.gen = u32Max :=
    hmirrors.gen.trans (Nat.le_antisymm hbound (Nat.le_of_not_lt hreusable))
  have hread : s'.rows[s'.idle]? = some crow := by rw [hidle, hcrow]
  refine ⟨?_, .generation hread hgen⟩
  simp only [Rings.open, if_neg hroom, Rings.vacate, hidle, ne_eq, hne, not_false_eq_true, if_true,
    hcrow, bind, Except.bind, Rings.occupy, hgen]

/-- **Opening a channel.**  Where the interpreter opens one, the generated program does so too, or
one of its limits is reached. -/
theorem Agrees.open (hagrees : Agrees s s' hs hs') {room : Nat} {h : Handle} {t : State P K}
    (hopen : s.open room = (.ok h, t)) :
    (∃ e, s'.open room = .error e ∧ s'.Exhausted room e) ∨
      ∃ raw t', s'.open room = .ok (raw, t') ∧ Agrees t t' (hs ++ [h]) (hs' ++ [raw]) := by
  have hrep : t.Represents := by
    have hkept := (hagrees.represents.open room).1.represents
    rwa [hopen] at hkept
  have hm := hagrees.toMirrored
  by_cases hroom : bendMaxActions < room
  · exact .inl ⟨_, if_pos hroom, .capacity hroom⟩
  obtain ⟨chained, hchained⟩ := hm.chain
  rcases hlist : chained with _ | ⟨index, more⟩
  · -- no row is free, so both tables get a new one
    subst hlist
    have hempty : s.free = [] := List.reverse_eq_nil_iff.mp hchained.free
    have hidle : s'.idle = u32Max := hchained.chain
    have hlast : s.free.getLast? = none := by rw [hempty, List.getLast?_nil]
    simp only [State.open, hlast] at hopen
    split at hopen
    · cases hopen
    · next hlimit =>
      obtain ⟨hgrown, hfree⟩ := hm.grow hchained (Nat.lt_of_not_le hlimit)
      have hrow : (s.rows ++ [(⟨0, none⟩ : Row P K)])[s.rows.length]? = some ⟨0, none⟩ := by simp
      rw [State.openAt_vacant (s := { s with rows := s.rows ++ [⟨0, none⟩] }) hrow (by decide)]
        at hopen
      obtain ⟨t', hopened, hagrees'⟩ := hgrown.occupy hfree List.not_mem_nil hrow (by decide) room
      cases hopen
      refine .inr ⟨_, t', ?_, hagrees', hrep⟩
      have hspace : ¬ bendMaxActions ≤ s'.rows.length := by
        rw [hm.length]
        exact hlimit
      have hvacate : s'.vacate =
          .ok (s.rows.length, { s' with rows := s'.rows ++ [Rings.blankRow] }) := by
        rw [Rings.vacate, if_neg (not_not.mpr hidle), if_neg hspace, hm.length]
      rw [Rings.open, if_neg hroom, hvacate]
      exact hopened
  · subst hlist
    cases hreusable : s.reusable index with
    | false => exact .inl ⟨_, Rings.open_retired hm hchained rfl hreusable hroom⟩
    | true =>
      obtain ⟨hidle, hne, crow, hcrow, -⟩ := hchained.chain
      obtain ⟨hlast, hrest, hfree⟩ := hm.unchain hchained hcrow hreusable
      obtain ⟨g, hrow⟩ := hchained.vacant index List.mem_cons_self
      have hg : g < u32Max := by simpa [State.reusable, hrow] using hreusable
      simp only [State.open, hlast] at hopen
      rw [State.openAt_vacant (s := { s with free := s.free.dropLast }) hrow hg] at hopen
      have hout : index ∉ more := (List.nodup_cons.mp hchained.nodup).1
      obtain ⟨t', hopened, hagrees'⟩ := hrest.occupy hfree hout hrow hg room
      cases hopen
      refine .inr ⟨_, t', ?_, hagrees', hrep⟩
      simp only [Rings.open, if_neg hroom, Rings.vacate, hidle, ne_eq, hne, not_false_eq_true,
        if_true, hcrow, bind, Except.bind]
      exact hopened

end Open

/-! ## 5. Runs -/

theorem agrees_start : Agrees (State.default : State P K) Rings.start [] [] where
  represents := State.represents_default
  limit := Nat.zero_le _
  length := rfl
  rows i row hi := by simp [State.default] at hi
  chain := ⟨[], rfl, List.nodup_nil, by simp, rfl⟩
  parked := .refl _
  handles := rfl
  named := by simp

/-- A channel is opened, and a limit is reached. -/
def AtLimit (s : Rings P K) (command : Handles.Command Nat (Request P K)) (e : Fault) : Prop :=
  ∃ room, command = .open room ∧ s.Exhausted room e

/-- **The generated table simulates the interpreted one.** -/
theorem generated_simulates [DecidableEq K] :
    Handles.Simulates (interpreted (P := P) (K := K)) generated AtLimit Agrees where
  start := agrees_start
  length hagrees := by rw [hagrees.handles, List.length_map]
  «open» hagrees hopen := (hagrees.open (Refusal.lift_eq hopen)).imp_left fun h =>
    h.imp fun _ he => ⟨he.1, _, rfl, he.2⟩
  call := by
    intro s s' hs hs' h raw request a t n hagrees hh hraw hcall
    have hmem : h ∈ hs := List.mem_of_getElem? hh
    have hname : raw = rawHandle h.generation h.index := by
      rw [hagrees.handles, List.getElem?_map, hh] at hraw
      exact (Option.some.inj hraw).symm
    subst hname
    refine .inr ?_
    cases request with
    | send payload task =>
      simp only [interpreted] at hcall
      split at hcall
      · cases hcall
      · next hfree => exact hagrees.send hmem hfree (Refusal.lift_eq hcall)
    | recv task =>
      simp only [interpreted] at hcall
      split at hcall
      · cases hcall
      · next hfree => exact hagrees.recv hmem hfree (Refusal.lift_eq hcall)
    | close => exact hagrees.close hmem (Except.ok.inj hcall)

/-- What the rows of a generated program say about the channels of the interpreter. -/
def Described (s : State P K) (s' : Rings P K) : Prop :=
  s'.rows.length = s.rows.length ∧
    ∀ (i : Nat) (row : Row P K), s.rows[i]? = some row → ∃ crow, s'.rows[i]? = some crow ∧
      crow.live = row.channel.isSome ∧ ∀ c, row.channel = some c → Shows c crow

/-- **Both runtimes agree on channels.**  Whatever the tasks ask, in any order, and whatever they
still call by an old handle: where the interpreter does all of it, the generated program gives the
same replies, parks the same tasks and wakes the same ones with the same values, and its rows
describe the channels.  Otherwise it has given the first of these replies, and then a channel is
opened where a limit of the program is reached. -/
theorem channels_generated [DecidableEq K] (commands : List (Handles.Command Nat (Request P K)))
    {replies : List (Handles.Reply (Transition P K))} {s : State P K} {hs : List Handle}
    (hrun : interpreted.run commands = .ok (replies, s, hs)) :
    (∃ before room after s' hs' e, commands = before ++ .open room :: after ∧
        generated.run before = .ok (replies.take before.length, s', hs') ∧
        s'.Exhausted room e ∧ generated.run commands = .error e) ∨
      ∃ s' hs', generated.run commands = .ok (replies, s', hs') ∧ Described s s' ∧
        s'.parked.Perm s.tasks := by
  rcases generated_simulates.run hrun with ⟨_, at_, e, hstops, room, rfl, hlimit⟩ |
    ⟨s', hs', hrun', hagrees⟩
  · obtain ⟨before, after, hs', hcommands, hbefore, -⟩ := hstops.before
    exact .inl ⟨before, room, after, at_, hs', e, hcommands, hbefore, hlimit, hstops.fails⟩
  · refine .inr ⟨s', hs', hrun', ⟨hagrees.length, fun i row hi => ?_⟩, hagrees.parked⟩
    obtain ⟨crow, hcrow, hmirrors⟩ := hagrees.rows i row hi
    refine ⟨crow, hcrow, ?_, hmirrors.shows⟩
    cases hchannel : row.channel with
    | none => exact hmirrors.vacant hchannel
    | some c => exact (hmirrors.shows c hchannel).live

/-- A channel of one place: the second sender waits, is woken by the receive, and the last payload
outlives the channel's end. -/
def onePlace : List (Handles.Command Nat (Request Nat Nat)) :=
  [.open 1, .call 0 (.send 7 1), .call 0 (.send 8 2), .call 0 (.recv 3), .call 0 .close,
    .call 0 (.recv 3), .call 0 (.recv 3)]

theorem channels_generated_one_place :
    ∃ s' hs', generated.run onePlace = .ok
        ([.opened, .answered ⟨.Ready (.Bool true), []⟩, .answered ⟨.Parked, []⟩,
          .answered ⟨.Ready (.Some 7), [⟨2, .Bool true⟩]⟩, .answered ⟨.Ready .Unit, []⟩,
          .answered ⟨.Ready (.Some 8), []⟩, .answered ⟨.Ready .None, []⟩], s', hs') ∧
      Described ⟨[⟨1, none⟩], [0], 0, 0⟩ s' ∧ s'.parked = [] := by
  have hrun : interpreted.run onePlace = .ok
      ([.opened, .answered ⟨.Ready (.Bool true), []⟩, .answered ⟨.Parked, []⟩,
        .answered ⟨.Ready (.Some 7), [⟨2, .Bool true⟩]⟩, .answered ⟨.Ready .Unit, []⟩,
        .answered ⟨.Ready (.Some 8), []⟩, .answered ⟨.Ready .None, []⟩],
        ⟨[⟨1, none⟩], [0], 0, 0⟩, [⟨0, 1⟩]) := rfl
  have hdone : ∃ result, generated.run onePlace = .ok result := ⟨_, rfl⟩
  rcases channels_generated onePlace hrun with ⟨_, _, _, _, _, e, -, -, -, hfails⟩ |
    ⟨s', hs', h, hdescribed, hparked⟩
  · obtain ⟨result, hok⟩ := hdone
    cases hok.symm.trans hfails
  · exact ⟨s', hs', h, hdescribed, hparked.eq_nil⟩

end TeamyBend.Runtime.Channels
