/-
# Who waits in the rows of a generated program

A call of `executable_io.c` on a channel parks at most the task that calls, and wakes some that
wait: what waits in the rows before and after differs by these tasks (`Serves`).  It never comes
to a slot without a payload, so the only way in which it ends the program is a task that is parked
already.

A row between two calls is a fair channel, or it is free and nobody waits in it (`ChanRow.Sane`);
the free rows make a chain.
-/
import TeamyBend.Runtime.ChannelAgreement
import TeamyBend.Library.Ledger

namespace TeamyBend.Runtime.Channels

open Library (Trade)

variable {P K : Type}

/-! ## 1. Rows between two calls -/

/-- The tasks that wait. -/
def Rings.waiting (s : Rings P K) : List K := s.rows.flatMap fun row => row.wait.map IoAct.task

/-- A live row is a fair channel, and nobody waits in a free one. -/
structure ChanRow.Sane (row : ChanRow P K) : Prop where
  shows : row.live = true → ∃ c, Shows c row ∧ c.Fair
  nobody : row.live = false → row.wait = []

/-- The rows and the chain between two calls. -/
structure Rings.Sane (s : Rings P K) : Prop where
  rows : ∀ row ∈ s.rows, row.Sane
  chain : ∃ chained, Chain s.rows s.idle chained ∧ chained.Nodup ∧
    ∀ i ∈ chained, ∃ row, s.rows[i]? = some row ∧ row.live = false
  length : s.rows.length ≤ bendMaxActions

/-- The task that a transition parks. -/
def Transition.parking (t : Transition P K) (task : K) : List K :=
  match t.outcome with
  | .Parked => [task]
  | .Ready _ => []

/-- What a call does with the tasks. -/
structure Serves (s : Rings P K) (task : K) (r : Transition P K × Rings P K) : Prop where
  sane : r.2.Sane
  trade : Trade s.waiting (r.1.wakes.map (·.continuation)) (r.1.parking task) r.2.waiting
  /-- A call that parks wakes nobody. -/
  alone : r.1.outcome = .Parked → r.1.wakes = []

theorem sane_start : (Rings.start : Rings P K).Sane where
  rows _ hrow := absurd hrow List.not_mem_nil
  chain := ⟨[], rfl, List.nodup_nil, fun _ hi => absurd hi List.not_mem_nil⟩
  length := Nat.zero_le _

section Rows

variable {s : Rings P K} {index raw : Nat} {row new : ChanRow P K} {task : K}

/-- A row takes its share of the trade. -/
theorem trade_waiting {old put : List K} {idle : Nat} {parked : List K}
    (hrow : s.rows[index]? = some row)
    (h : (new.wait.map IoAct.task ++ old).Perm (row.wait.map IoAct.task ++ put)) :
    Trade s.waiting old put (Rings.waiting ⟨s.rows.set index new, idle, parked⟩) := by
  refine .of_sums fun weight => ?_
  have hset := Library.sum_flatMap_set (fun row : ChanRow P K => row.wait.map IoAct.task) weight
    hrow new
  have hsum := (h.map weight).sum_nat
  simp only [List.map_append, List.sum_append] at hsum
  simp only [Rings.waiting]
  omega

theorem Rings.chanAt_spec (h : s.chanAt raw = some (index, row)) :
    s.rows[index]? = some row ∧ row.live = true := by
  simp only [Rings.chanAt] at h
  split at h
  · cases h
  · next hrow =>
    split at h
    · next hlive =>
      cases h
      exact ⟨hrow, (Bool.and_eq_true _ _ ▸ hlive).1⟩
    · cases h

theorem Rings.Sane.rowAt (hs : s.Sane) (hrow : s.rows[index]? = some row) : row.Sane :=
  hs.rows row (List.mem_of_getElem? hrow)

/-- A live row changes. -/
theorem Rings.Sane.set (hs : s.Sane) (hrow : s.rows[index]? = some row) (hlive : row.live = true)
    (hnew : new.Sane) (parked : List K) :
    Rings.Sane ⟨s.rows.set index new, s.idle, parked⟩ where
  rows r hr := by
    rcases List.mem_or_eq_of_mem_set hr with hmem | rfl
    · exact hs.rows r hmem
    · exact hnew
  chain := by
    obtain ⟨chained, hchain, hnodup, hfree⟩ := hs.chain
    have hother : ∀ i ∈ chained, (s.rows.set index new)[i]? = s.rows[i]? := by
      intro i hi
      refine List.getElem?_set_ne fun heq => ?_
      obtain ⟨r, hr, hdead⟩ := hfree i hi
      rw [← heq, hrow] at hr
      cases hr
      rw [hlive] at hdead
      cases hdead
    exact ⟨chained, hchain.frame hother, hnodup, fun i hi => by rw [hother i hi]; exact hfree i hi⟩
  length := by
    rw [List.length_set]
    exact hs.length

/-- A live row is freed. -/
theorem Rings.Sane.free (hs : s.Sane) (hrow : s.rows[index]? = some row)
    (hlive : row.live = true) (hnobody : new.wait = []) (hdead : new.live = false)
    (hnext : new.next = s.idle) (parked : List K) :
    Rings.Sane ⟨s.rows.set index new, index, parked⟩ where
  rows r hr := by
    rcases List.mem_or_eq_of_mem_set hr with hmem | rfl
    · exact hs.rows r hmem
    · exact ⟨fun hlive => absurd hlive (by simp [hdead]), fun _ => hnobody⟩
  chain := by
    obtain ⟨chained, hchain, hnodup, hfree⟩ := hs.chain
    obtain ⟨hlt, -⟩ := List.getElem?_eq_some_iff.mp hrow
    have hout : index ∉ chained := by
      intro hmem
      obtain ⟨r, hr, hr'⟩ := hfree index hmem
      rw [hrow] at hr
      cases hr
      rw [hlive] at hr'
      cases hr'
    have hother : ∀ i ∈ chained, (s.rows.set index new)[i]? = s.rows[i]? := by
      intro i hi
      refine List.getElem?_set_ne fun heq => hout ?_
      rwa [heq]
    have hself : (s.rows.set index new)[index]? = some new := List.getElem?_set_self hlt
    have hlength := hs.length
    refine ⟨index :: chained, ⟨rfl, ?_, new, hself, hnext ▸ hchain.frame hother⟩,
      List.nodup_cons.mpr ⟨hout, hnodup⟩, fun i hi => ?_⟩
    · simp only [bendMaxActions, u32Max] at hlength ⊢
      omega
    · rcases List.mem_cons.mp hi with rfl | hi
      · exact ⟨new, hself, hdead⟩
      · rw [hother i hi]
        exact hfree i hi
  length := by
    rw [List.length_set]
    exact hs.length

end Rows

/-! ## 2. Calls -/

section Calls

variable {s : Rings P K} {index raw : Nat} {row : ChanRow P K} {task : K} {c : Channel P K}

theorem Serves.same (hs : s.Sane) (answer : Answer P) : Serves s task (.ready answer, s) :=
  ⟨hs, List.Perm.refl _, fun _ => rfl⟩

/-- A call that leaves its row in use. -/
theorem Serves.kept {t : Turn P K} {outcome : Outcome P} (hs : s.Sane)
    (hat : s.chanAt raw = some (index, row)) (hshows : Shows c t.row) (hfair : c.Fair)
    (hidle : t.idle = s.idle) (halone : outcome = .Parked → t.wakes = [])
    (htasks : (t.row.wait.map IoAct.task ++ t.wakes.map (·.continuation)).Perm
      (row.wait.map IoAct.task ++ Transition.parking (⟨outcome, t.wakes⟩ : Transition P K) task)) :
    Serves s task (s.finish index outcome t) := by
  obtain ⟨hrow, hlive⟩ := Rings.chanAt_spec hat
  refine ⟨?_, trade_waiting hrow htasks, halone⟩
  have hsane : t.row.Sane :=
    ⟨fun _ => ⟨c, hshows, hfair⟩, fun hdead => absurd hshows.live (by simp [hdead])⟩
  have hset := hs.set hrow hlive hsane t.parked
  rwa [← hidle] at hset

/-- A call that frees its row, where nobody waits any more. -/
theorem Serves.freed {t : Turn P K} {answer : Answer P} (hs : s.Sane)
    (hat : s.chanAt raw = some (index, row)) (hnobody : t.row.wait = []) (hidle : t.idle = s.idle)
    (htasks : (t.wakes.map (·.continuation)).Perm (row.wait.map IoAct.task)) :
    Serves s task (s.finish index (.Ready answer) (t.free index)) := by
  obtain ⟨hrow, hlive⟩ := Rings.chanAt_spec hat
  refine ⟨@Rings.Sane.free _ _ s index row (t.free index).row hs hrow hlive hnobody rfl hidle
    t.parked, trade_waiting hrow ?_, fun hparked => by cases hparked⟩
  simp only [Rings.finish, Turn.free, hnobody, List.map_nil, List.nil_append,
    Transition.parking, List.append_nil]
  exact htasks

variable [DecidableEq K]

/-- A task is parked, or it is already. -/
theorem Turn.park_cases (t : Turn P K) (task : K) (item : Option P) :
    (task ∈ t.parked ∧ t.park task item = .error (.Fail "activation already parked")) ∨
      ∃ parked, t.park task item = .ok
        ⟨{ t.row with wait := t.row.wait ++ [⟨task, item⟩] }, t.idle, parked, t.wakes⟩ := by
  by_cases hmem : task ∈ t.parked
  · exact .inl ⟨hmem, if_pos hmem⟩
  · exact .inr ⟨_, if_neg hmem⟩

/-- **A send** parks or wakes, or its task is parked already. -/
theorem Rings.send_serves (hs : s.Sane) (raw : Nat) (payload : P) (task : K) :
    (task ∈ s.parked ∧
      s.send raw payload task = .error (.Fail "activation already parked")) ∨
      ∃ r, s.send raw payload task = .ok r ∧ Serves s task r := by
  cases hat : s.chanAt raw with
  | none => exact .inr ⟨_, by simp only [Rings.send, hat]; rfl, .same hs _⟩
  | some found =>
    obtain ⟨index, row⟩ := found
    obtain ⟨hrow, hlive⟩ := Rings.chanAt_spec hat
    obtain ⟨c, hshows, hfair⟩ := (hs.rowAt hrow).shows hlive
    simp only [Rings.send, hat, hshows.shut, hshows.hasReceiver, hshows.size, hshows.room]
    split_ifs with hclosed hreceiver hroom
    · exact .inr ⟨_, rfl, .same hs _⟩
    · obtain ⟨receiver, wait, hwait⟩ := Channel.hasReceiver_cases hreceiver
      have hwait' : (s.turn row).row.wait = ⟨receiver, none⟩ :: wait.map Waiter.act := by
        rw [Rings.turn, hshows.wait, hwait]
        rfl
      have hmem : ∀ w ∈ wait, w ∈ c.wait := fun w hw => hwait ▸ List.mem_cons_of_mem _ hw
      rw [Turn.wake_eq hwait']
      refine .inr ⟨_, rfl, .kept hs hat (hshows.waiting wait)
        (hfair.served hmem (by simpa using hclosed)) rfl (by simp) ?_⟩
      rw [show row.wait = _ from hwait']
      simp only [Rings.turn, List.nil_append, List.map_cons, List.map_nil, Transition.parking,
        List.append_nil]
      exact List.perm_append_singleton _ _
    · refine .inr ⟨_, rfl, .kept hs hat (hshows.push hroom payload)
        (hfair.buffered (by simpa using hreceiver) hroom hclosed payload) rfl (by simp) ?_⟩
      exact List.Perm.refl _
    · rcases Turn.park_cases (s.turn row) task (some payload) with ⟨hmem, herror⟩ | ⟨parked, hpark⟩
      · exact .inl ⟨hmem, by rw [herror]; rfl⟩
      · have hshown := hshows.waiting (c.wait ++ [.Sender task payload])
        rw [List.map_append, ← hshows.wait] at hshown
        rw [hpark]
        refine .inr ⟨_, rfl, .kept hs hat hshown
          (hfair.sender_waits (by simpa using hreceiver) hroom hclosed task payload) rfl
          (fun _ => rfl) ?_⟩
        simp [Rings.turn, Transition.parking]

/-- **A receive** parks or wakes, or its task is parked already. -/
theorem Rings.recv_serves (hs : s.Sane) (raw : Nat) (task : K) :
    (task ∈ s.parked ∧ s.recv raw task = .error (.Fail "activation already parked")) ∨
      ∃ r, s.recv raw task = .ok r ∧ Serves s task r := by
  cases hat : s.chanAt raw with
  | none => exact .inr ⟨_, by simp only [Rings.recv, hat]; rfl, .same hs _⟩
  | some found =>
    obtain ⟨index, row⟩ := found
    obtain ⟨hrow, hlive⟩ := Rings.chanAt_spec hat
    obtain ⟨c, hshows, hfair⟩ := (hs.rowAt hrow).shows hlive
    simp only [Rings.recv, hat, hshows.shut, hshows.hasSender, hshows.size]
    cases hbuffer : c.buffer with
    | cons payload buffer =>
      have hfirst := hshows.first hbuffer hfair.bounded
      have hpop := hshows.pop hbuffer hfair.bounded
      rw [List.length_cons, if_pos (Nat.succ_ne_zero _)]
      cases hwait : c.wait with
      | nil =>
        have hwait' : (s.turn row).row.wait = [] := by
          rw [Rings.turn, hshows.wait, hwait, List.map_nil]
        rw [Turn.take_nobody hfirst hwait']
        simp only [bind, Except.bind, pure, Except.pure]
        split_ifs with hdone
        · refine .inr ⟨_, rfl, .freed hs hat hwait' rfl ?_⟩
          rw [show row.wait = [] from hwait']
          exact List.Perm.refl _
        · have hbounded := hfair.bounded
          rw [hbuffer, List.length_cons] at hbounded
          have hopen : c.closed = true → buffer ≠ [] := fun hclosed hempty =>
            hdone ⟨hpop.shut.trans hclosed, hpop.size.trans (by rw [hempty]; rfl)⟩
          have hrest : ({ c with buffer } : Channel P K).Fair := by
            rw [hwait]
            exact .nobody (Nat.le_of_succ_le hbounded) hopen
          exact .inr ⟨_, rfl, .kept hs hat hpop hrest rfl (by simp) (List.Perm.refl _)⟩
      | cons w wait =>
        obtain ⟨hkind, hopen⟩ := hfair.first_sender hbuffer hwait
        cases w with
        | Receiver receiver => cases hkind
        | Sender sender waiting =>
          have hwait' : (s.turn row).row.wait = ⟨sender, some waiting⟩ :: wait.map Waiter.act := by
            rw [Rings.turn, hshows.wait, hwait]
            rfl
          have hroom : buffer.length < c.room := by
            have hbounded := hfair.bounded
            rw [hbuffer, List.length_cons] at hbounded
            omega
          have hpush := (hpop.waiting wait).push hroom waiting
          have hshut : row.shut = false := hshows.shut.trans hopen
          rw [Turn.take_sender hfirst hwait']
          simp only [bind, Except.bind, pure, Except.pure]
          rw [if_neg fun hdone => Bool.noConfusion (hshut.symm.trans hdone.1)]
          refine .inr ⟨_, rfl, .kept hs hat hpush (hfair.relayed hbuffer hwait) rfl (by simp) ?_⟩
          rw [show row.wait = _ from hwait']
          simp only [Rings.turn, Turn.put, List.nil_append, List.map_cons, List.map_nil,
            Transition.parking, List.append_nil]
          exact List.perm_append_singleton _ _
    | nil =>
      have hopen : c.closed ≠ true := fun hclosed => (hfair.closed hclosed).2 hbuffer
      rw [List.length_nil, if_neg fun hne => hne rfl]
      split_ifs with hsender
      · obtain ⟨sender, payload, wait, hwait⟩ := Channel.hasSender_cases hsender
        have hwait' : (s.turn row).row.wait = ⟨sender, some payload⟩ :: wait.map Waiter.act := by
          rw [Rings.turn, hshows.wait, hwait]
          rfl
        have hmem : ∀ w ∈ wait, w ∈ c.wait := fun w hw => hwait ▸ List.mem_cons_of_mem _ hw
        rw [Turn.wake_eq hwait']
        refine .inr ⟨_, rfl, .kept hs hat (hshows.waiting wait)
          (hfair.served hmem (by simpa using hopen)) rfl (by simp) ?_⟩
        rw [show row.wait = _ from hwait']
        simp only [Rings.turn, List.nil_append, List.map_cons, List.map_nil, Transition.parking,
          List.append_nil]
        exact List.perm_append_singleton _ _
      · rcases Turn.park_cases (s.turn row) task none with ⟨hmem, herror⟩ | ⟨parked, hpark⟩
        · exact .inl ⟨hmem, by rw [herror]; rfl⟩
        · have hshown := hshows.waiting (c.wait ++ [.Receiver task])
          rw [List.map_append, ← hshows.wait] at hshown
          rw [hpark]
          refine .inr ⟨_, rfl, .kept hs hat hshown
            (hfair.receiver_waits hbuffer (by simpa using hsender) hopen task) rfl
            (fun _ => rfl) ?_⟩
          simp [Rings.turn, Transition.parking]

/-- **The end of a channel** wakes all who wait. -/
theorem Rings.close_serves (hs : s.Sane) (raw : Nat) (task : K) :
    ∃ r, s.close raw = .ok r ∧ Serves s task r ∧ r.1.parking task = [] := by
  cases hat : s.chanAt raw with
  | none => exact ⟨_, by simp only [Rings.close, hat]; rfl, .same hs _, rfl⟩
  | some found =>
    obtain ⟨index, row⟩ := found
    obtain ⟨hrow, hlive⟩ := Rings.chanAt_spec hat
    obtain ⟨c, hshows, hfair⟩ := (hs.rowAt hrow).shows hlive
    have hwoken : ((s.turn row).row.wait.map IoAct.closing).map (·.continuation) =
        row.wait.map IoAct.task := by
      rw [List.map_map]
      rfl
    simp only [Rings.close, hat, Turn.shut, Turn.wakeAll_eq (t := { s.turn row with
      row := { (s.turn row).row with shut := true } }) _ rfl, bind, Except.bind, pure, Except.pure]
    split_ifs with hsize
    · refine ⟨_, rfl, .freed hs hat rfl rfl ?_, rfl⟩
      exact List.Perm.of_eq hwoken
    · have hshown : Shows ({ c with closed := true, wait := [] } : Channel P K)
          { row with shut := true, wait := [] } := { hshows.waiting [] with shut := rfl }
      have hrest : ({ c with closed := true, wait := [] } : Channel P K).Fair :=
        .nobody hfair.bounded fun _ hempty => hsize (hshows.size.trans (by rw [hempty]; rfl))
      refine ⟨_, rfl, .kept hs hat hshown hrest rfl (by simp) ?_, rfl⟩
      simp only [Transition.parking, List.append_nil, List.map_nil, List.nil_append]
      exact List.Perm.of_eq hwoken

end Calls

/-! ## 3. Opening -/

section Open

variable {s : Rings P K} {index room : Nat} {row : ChanRow P K}

/-- A vacant row that is not on the chain. -/
structure Rings.Vacant (s : Rings P K) (index : Nat) : Prop where
  sane : s.Sane
  row : ∃ row, s.rows[index]? = some row ∧ row.live = false
  off : ∃ chained, Chain s.rows s.idle chained ∧ chained.Nodup ∧
    (∀ i ∈ chained, ∃ row, s.rows[i]? = some row ∧ row.live = false) ∧ index ∉ chained

/-- The first half of `chan_open`. -/
theorem Rings.vacate_spec (hs : s.Sane) :
    s.vacate = .error (.Fail "channel count budget exhausted") ∨
      ∃ index t, s.vacate = .ok (index, t) ∧ t.Vacant index ∧ t.waiting = s.waiting := by
  obtain ⟨chained, hchain, hnodup, hfree⟩ := hs.chain
  unfold Rings.vacate
  cases chained with
  | nil =>
    have hnone : ¬s.idle ≠ u32Max := not_not_intro hchain
    rw [if_neg hnone]
    split_ifs with hfull
    · exact .inl rfl
    · have hlast : (s.rows ++ [blankRow])[s.rows.length]? = some blankRow := by simp
      refine .inr ⟨_, _, rfl, ⟨⟨fun row hrow => ?_, ⟨[], hchain, List.nodup_nil, by simp⟩, ?_⟩,
        ⟨_, hlast, rfl⟩, ⟨[], hchain, List.nodup_nil, by simp, by simp⟩⟩, ?_⟩
      · rcases List.mem_append.mp hrow with hrow | hrow
        · exact hs.rows row hrow
        · rw [List.mem_singleton.mp hrow]
          exact ⟨fun hlive => (by cases hlive), fun _ => rfl⟩
      · simp only [List.length_append, List.length_singleton]
        omega
      · simp [Rings.waiting, blankRow]
  | cons i more =>
    obtain ⟨hidle, hne, row, hrow, hmore⟩ := hchain
    rw [hidle, if_pos hne, hrow]
    have hfree' : ∀ j ∈ more, ∃ row, s.rows[j]? = some row ∧ row.live = false := fun j hj =>
      hfree j (List.mem_cons_of_mem _ hj)
    obtain ⟨hout, hnodup'⟩ := List.nodup_cons.mp hnodup
    exact .inr ⟨_, _, rfl, ⟨⟨hs.rows, ⟨more, hmore, hnodup', hfree'⟩, hs.length⟩,
      hfree i (List.mem_cons_self ..), ⟨more, hmore, hnodup', hfree', hout⟩⟩, rfl⟩

/-- **A new channel** has nobody waiting, and those who wait elsewhere stay. -/
theorem Rings.open_serves (hs : s.Sane) (room : Nat) :
    (∃ message, s.open room = .error (.Fail message)) ∨
      ∃ raw t, s.open room = .ok (raw, t) ∧ t.Sane ∧ Trade s.waiting [] [] t.waiting := by
  unfold Rings.open
  split_ifs with hroom
  · exact .inl ⟨_, rfl⟩
  · rcases Rings.vacate_spec hs with herror | ⟨index, t, hvacate, hvacant, hwaiting⟩
    · exact .inl ⟨_, by rw [herror]; rfl⟩
    · obtain ⟨hsane, ⟨row, hrow, hdead⟩, chained, hchain, hnodup, hfree, hout⟩ := hvacant
      rw [hvacate]
      simp only [bind, Except.bind, Rings.occupy, hrow]
      split_ifs with hgen
      · exact .inl ⟨_, rfl⟩
      · have hother : ∀ i ∈ chained,
            (t.rows.set index (row.opened (row.gen + 1) room))[i]? = t.rows[i]? := by
          intro i hi
          refine List.getElem?_set_ne fun heq => hout ?_
          rwa [heq]
        refine .inr ⟨_, _, rfl, ⟨fun r hr => ?_, ⟨chained, hchain.frame hother, hnodup,
          fun i hi => by rw [hother i hi]; exact hfree i hi⟩, ?_⟩, ?_⟩
        · rcases List.mem_or_eq_of_mem_set hr with hmem | rfl
          · exact hsane.rows r hmem
          · exact ⟨fun _ => ⟨_, shows_opened row room, .nobody (Nat.zero_le _) (by simp)⟩,
              fun hlive => (by cases hlive)⟩
        · rw [List.length_set]
          exact hsane.length
        · rw [← hwaiting]
          refine trade_waiting hrow ?_
          rw [(hsane.rowAt hrow).nobody hdead]
          exact List.Perm.refl _

end Open

end TeamyBend.Runtime.Channels
