/-
# Who waits in the channels

Every call on the channel table parks its caller, wakes some of those who wait, or neither, and
the number of waiting parties changes by exactly that.  It rests on two facts about the table: a
closed channel has nobody waiting, so releasing one loses no party, and a free row is vacant, so
neither does opening one.
-/
import TeamyBend.Runtime.ChannelsFifo
import Mathlib.Algebra.Order.Ring.Nat

namespace TeamyBend.Runtime.Channels

variable {P K : Type} {s s' : State P K} {h : Handle} {c d : Channel P K}

/-! ## 1. Counting the parties -/

/-- How many parties wait in a row. -/
def Row.waiting (row : Row P K) : Nat :=
  match row.channel with
  | some channel => channel.wait.length
  | none => 0

/-- How many parties wait in the table. -/
def State.waiting (s : State P K) : Nat := (s.rows.map Row.waiting).sum

/-- How many callers a transition parks. -/
def Transition.parks (t : Transition P K) : Nat :=
  match t.outcome with
  | .Ready _ => 0
  | .Parked => 1

/-- Nobody waits in a closed channel. -/
def Row.Quiet (row : Row P K) : Prop :=
  ∀ channel, row.channel = some channel → channel.closed = true → channel.wait = []

/-- The invariant of the table. -/
structure State.Quiet (s : State P K) : Prop extends s.Vacancies where
  closed : ∀ (i : Nat) (row : Row P K), s.rows[i]? = some row → row.Quiet

theorem State.quiet_default : (State.default : State P K).Quiet where
  vacant := by simp [State.default]
  nodup := List.nodup_nil
  closed := by simp [State.default]

/-- Replacing one row changes the number by what the row had and what it gets. -/
theorem sum_map_set {α : Type} (f : α → Nat) {l : List α} {i : Nat} {a : α} (b : α)
    (ha : l[i]? = some a) : ((l.set i b).map f).sum + f a = (l.map f).sum + f b := by
  induction l generalizing i with
  | nil => simp at ha
  | cons x l ih =>
    cases i with
    | zero =>
      obtain rfl : x = a := by simpa using ha
      simp only [List.set_cons_zero, List.map_cons, List.sum_cons]
      omega
    | succ i =>
      have hrest := ih (by simpa using ha)
      simp only [List.set_cons_succ, List.map_cons, List.sum_cons]
      omega

theorem modify_eq_set {α : Type} (f : α → α) {l : List α} {i : Nat} {a : α} (ha : l[i]? = some a) :
    l.modify i f = l.set i (f a) := by
  apply List.ext_getElem?
  intro j
  have hi : i < l.length := (List.getElem?_eq_some_iff.mp ha).1
  simp only [List.getElem?_modify, List.getElem?_set]
  by_cases hij : i = j
  · subst hij
    rw [ha, if_pos rfl, if_pos hi]
    simp
  · simp [hij]

/-- Putting a channel behind a handle. -/
theorem State.Quiet.replace (hs : s.Quiet) (hat : s.channelAt h = some c)
    (hrows : s'.rows = (s.setChannel h.index (some d)).rows) (hfree : s'.free = s.free)
    (hd : d.closed = true → d.wait = []) :
    s'.Quiet ∧ s'.waiting + c.wait.length = s.waiting + d.wait.length := by
  have hrow := State.channelAt_eq_some.mp hat
  have hset : s'.rows = s.rows.set h.index ⟨h.generation, some d⟩ := by
    rw [hrows, State.setChannel]
    exact modify_eq_set _ hrow
  have hvacant : s'.Vacancies := hs.toVacancies.replace hat hrows hfree
  refine ⟨⟨hvacant, fun i row hi => ?_⟩, ?_⟩
  · rw [hset, List.getElem?_set] at hi
    split at hi
    · split at hi
      · cases hi
        rintro channel ⟨⟩
        exact hd
      · cases hi
    · exact hs.closed i row hi
  · rw [State.waiting, State.waiting, hset]
    exact sum_map_set Row.waiting _ hrow

/-- Releasing the row of a handle. -/
theorem State.Quiet.release (hs : s.Quiet) (hat : s.channelAt h = some c) :
    (s.release h.index).Quiet ∧ (s.release h.index).waiting + c.wait.length = s.waiting := by
  have hrow := State.channelAt_eq_some.mp hat
  have hset : (s.release h.index).rows = s.rows.set h.index ⟨h.generation, none⟩ := by
    rw [State.rows_release, State.setChannel]
    exact modify_eq_set _ hrow
  refine ⟨⟨hs.toVacancies.release hat, fun i row hi => ?_⟩, ?_⟩
  · rw [hset, List.getElem?_set] at hi
    split at hi
    · split at hi
      · cases hi
        rintro channel ⟨⟩
      · cases hi
    · exact hs.closed i row hi
  · rw [State.waiting, State.waiting, hset]
    exact sum_map_set Row.waiting _ hrow

/-- A closed channel that is released has nobody waiting. -/
theorem State.Quiet.wait_eq_nil (hs : s.Quiet) (hat : s.channelAt h = some c)
    (hc : c.closed = true) : c.wait = [] :=
  hs.closed h.index _ (State.channelAt_eq_some.mp hat) c rfl hc

/-! ## 2. One lemma for each operation -/

/-- What a call that succeeds leaves behind. -/
structure Accounted (s : State P K) (t : Transition P K) (s' : State P K) : Prop where
  quiet : s'.Quiet
  count : s'.waiting + t.wakes.length = s.waiting + t.parks

/-- A call that leaves the table alone. -/
theorem State.Quiet.same (hs : s.Quiet) (answer : Answer P) :
    Accounted s (.ready answer : Transition P K) s :=
  ⟨hs, rfl⟩

/-- A call that puts another channel behind a handle. -/
theorem State.Quiet.accounted (hs : s.Quiet) {t : Transition P K} (hat : s.channelAt h = some c)
    (hrows : s'.rows = (s.setChannel h.index (some d)).rows) (hfree : s'.free = s.free)
    (hd : d.closed = true → d.wait = [])
    (hcount : d.wait.length + t.wakes.length = c.wait.length + t.parks) : Accounted s t s' := by
  obtain ⟨hquiet, hwaiting⟩ := hs.replace hat hrows hfree hd
  exact ⟨hquiet, by omega⟩

/-- A call that puts another channel behind a handle, and then releases its row. -/
theorem State.Quiet.accounted_release (hs : s.Quiet) {t : Transition P K}
    (hat : s.channelAt h = some c) (hrows : s'.rows = (s.setChannel h.index (some d)).rows)
    (hfree : s'.free = s.free) (hd : d.wait = [])
    (hcount : t.wakes.length = c.wait.length + t.parks) :
    Accounted s t (s'.release h.index) := by
  obtain ⟨hquiet, hwaiting⟩ := hs.replace hat hrows hfree fun _ => hd
  have hat' : s'.channelAt h = some d := by rw [State.channelAt_replace hat hrows, if_pos rfl]
  obtain ⟨hquiet', hwaiting'⟩ := hquiet.release hat'
  have hnone : d.wait.length = 0 := by rw [hd]; rfl
  exact ⟨hquiet', by omega⟩

theorem State.Quiet.send (hs : s.Quiet) {payload : P} {continuation : K} {t : Transition P K}
    (hok : s.send h payload continuation = (.ok t, s')) : Accounted s t s' := by
  unfold State.send at hok
  cases hat : s.channelAt h with
  | none =>
    rw [hat] at hok
    cases hok
    exact hs.same _
  | some c =>
    rw [hat] at hok
    simp only at hok
    split_ifs at hok with hclosed hpayloads hwaiters hreceiver hbuffer
    · cases hok
      exact hs.same _
    · cases hok
    · cases hok
    · -- the first waiting receiver is handed the payload
      split at hok
      · rename_i receiver wait hwait
        cases hok
        refine hs.accounted hat rfl rfl (fun hc => absurd hc hclosed) ?_
        rw [hwait]
        rfl
      · cases hok
    · cases hok
      exact hs.accounted hat rfl rfl (fun hc => absurd hc hclosed) rfl
    · cases hok
      refine hs.accounted hat rfl rfl (fun hc => absurd hc hclosed) ?_
      simp [Transition.parked, Transition.parks]

theorem State.Quiet.recv (hs : s.Quiet) {continuation : K} {t : Transition P K}
    (hok : s.recv h continuation = (.ok t, s')) : Accounted s t s' := by
  unfold State.recv at hok
  cases hat : s.channelAt h with
  | none =>
    rw [hat] at hok
    cases hok
    exact hs.same _
  | some c =>
    rw [hat] at hok
    have hquiet := hs.wait_eq_nil hat
    simp only at hok
    split at hok
    · cases hok
    · cases hbuffer : c.buffer with
      | cons payload buffer =>
        cases hwait : c.wait with
        | nil =>
          simp only [hbuffer, hwait, State.releaseIfDone] at hok
          split at hok
          · cases hok
            exact hs.accounted_release hat rfl rfl rfl (by rw [hwait]; rfl)
          · cases hok
            exact hs.accounted hat rfl rfl (fun _ => rfl) (by rw [hwait]; rfl)
        | cons waiter wait =>
          -- somebody waits, so the channel is open and its row is kept
          have hopen : c.closed = false := by
            cases hclosed : c.closed with
            | false => rfl
            | true => rw [hquiet hclosed] at hwait; cases hwait
          cases waiter with
          | Sender sender waiting =>
            simp only [hbuffer, hwait, hopen, State.releaseIfDone, Bool.false_and,
              Bool.false_eq_true, if_false] at hok
            cases hok
            refine hs.accounted hat rfl rfl (fun hc => ?_) ?_
            · cases hc
            · rw [hwait]
              rfl
          | Receiver receiver =>
            simp only [hbuffer, hwait] at hok
            cases hok
      | nil =>
        simp only [hbuffer] at hok
        split at hok
        · -- the first waiting sender hands over its payload
          split at hok
          · rename_i sender payload wait hwait
            cases hok
            refine hs.accounted hat rfl rfl (fun hc => ?_) (by rw [hwait]; rfl)
            rw [hquiet hc] at hwait
            cases hwait
          · cases hok
        · split at hok
          · rename_i hclosed
            cases hok
            obtain ⟨hquiet', hcount⟩ := hs.release hat
            have hnone : c.wait.length = 0 := by rw [hquiet hclosed]; rfl
            exact ⟨hquiet', by simpa [Transition.ready, Transition.parks, hnone] using hcount⟩
          · rename_i hclosed
            cases hok
            refine hs.accounted hat rfl rfl (fun hc => absurd hc hclosed) ?_
            simp [Transition.parked, Transition.parks]

theorem State.Quiet.close (hs : s.Quiet) {t : Transition P K} (hok : s.close h = (t, s')) :
    Accounted s t s' := by
  unfold State.close at hok
  cases hat : s.channelAt h with
  | none =>
    rw [hat] at hok
    cases hok
    exact hs.same _
  | some c =>
    rw [hat] at hok
    simp only at hok
    split_ifs at hok with hclosed hempty
    · cases hok
      exact hs.same _
    · cases hok
      exact hs.accounted_release hat rfl rfl rfl (by simp [Transition.parks])
    · cases hok
      exact hs.accounted hat rfl rfl (fun _ => rfl) (by simp [Transition.parks])

theorem State.Quiet.openAt (hs : s.Quiet) {index room g : Nat} {handle : Handle}
    (hrow : s.rows[index]? = some ⟨g, none⟩) (hfree : index ∉ s.free)
    (hok : s.openAt index room = (.ok handle, s')) : s'.Quiet ∧ s'.waiting = s.waiting := by
  unfold State.openAt at hok
  simp only [hrow] at hok
  split at hok
  · cases hok
  · cases hok
    refine ⟨⟨⟨fun i hi => ?_, hs.nodup⟩, fun i row hi => ?_⟩, ?_⟩
    · have hne : index ≠ i := fun he => hfree (he ▸ hi)
      simpa [List.getElem?_set, hne] using hs.vacant i hi
    · simp only [List.getElem?_set] at hi
      split at hi
      · split at hi
        · cases hi
          rintro channel ⟨⟩ -
          rfl
        · cases hi
      · exact hs.closed i row hi
    · exact sum_map_set Row.waiting ⟨g + 1, some ⟨room, false, [], []⟩⟩ hrow

theorem State.Quiet.open (hs : s.Quiet) {room : Nat} {handle : Handle}
    (hok : s.open room = (.ok handle, s')) : s'.Quiet ∧ s'.waiting = s.waiting := by
  unfold State.open at hok
  cases hlast : s.free.getLast? with
  | none =>
    rw [hlast] at hok
    simp only at hok
    split at hok
    · cases hok
    · have hempty : s.free = [] := List.getLast?_eq_none_iff.mp hlast
      have hquiet : State.Quiet { s with rows := s.rows ++ [⟨0, none⟩] } := by
        refine ⟨⟨by simp [hempty], hs.nodup⟩, fun i row hi => ?_⟩
        rcases List.mem_append.mp (List.mem_of_getElem? hi) with hmem | hmem
        · obtain ⟨j, hj⟩ := List.mem_iff_getElem?.mp hmem
          exact hs.closed j row hj
        · obtain rfl := List.mem_singleton.mp hmem
          rintro channel ⟨⟩
      obtain ⟨hquiet', hwaiting⟩ := hquiet.openAt (g := 0) (by simp) (by simp [hempty]) hok
      refine ⟨hquiet', hwaiting.trans ?_⟩
      simp [State.waiting, Row.waiting]
  | some index =>
    rw [hlast] at hok
    have hsplit : s.free = s.free.dropLast ++ [index] :=
      (List.dropLast_append_getLast? index hlast).symm
    have hnodup := hs.nodup
    rw [hsplit, List.nodup_append] at hnodup
    obtain ⟨g, hrow, -⟩ := hs.vacant index (by rw [hsplit]; simp)
    have hquiet : State.Quiet { s with free := s.free.dropLast } :=
      ⟨⟨fun i hi => hs.vacant i (List.dropLast_subset _ hi), hnodup.1⟩, hs.closed⟩
    have hfree : index ∉ s.free.dropLast := fun hmem =>
      hnodup.2.2 index hmem index (by simp) rfl
    exact hquiet.openAt hrow hfree hok

end TeamyBend.Runtime.Channels
