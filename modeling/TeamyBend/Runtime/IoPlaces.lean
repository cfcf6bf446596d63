/-
# No task of a generated program is lost

Every action that the registry owns has one place: a queue, the snapshot that `io_wait` drains, a
worker, a channel, or it is the one that runs (`Machine.places`).  A step takes some actions from
their places and puts them at others, and writes only in those (`Placed.moves`); so the flag of an
action always names its place, and the counters are those of the places.

`io_wait` finds the answer for a descriptor by counting.  The entries that it has not read yet are
those that were written for the rest of the snapshot, in order (`Machine.Aligned`).
-/
import TeamyBend.Runtime.IoLoop

namespace TeamyBend.Runtime.IoLoop

open Channels (Rings ChanRow Transition Fault Wake Serves)
open Library (Trade)

variable {P : Type}

/-! ## 1. Places -/

/-- Where an action can be. -/
inductive Place where
  | run
  | park
  /-- The snapshot of `io_wait`. -/
  | snapshot
  | job
  | worker
  | completed
  /-- What `io_take` took off the completed queue. -/
  | taken
  | channel
  | running
  deriving DecidableEq

namespace Place

/-- The flag of an action. -/
def parked : Place → Nat
  | run | running => 0
  | park | snapshot => 1
  | job | worker | completed | taken => 2
  | channel => 3

/-- The places that `io_busy` counts. -/
def busy : Place → Bool
  | job | worker | completed | taken => true
  | _ => false

end Place

def Back.waiting : Back → List Nat
  | loop _ => []
  | wait _ waiting _ => waiting

def Back.ahead : Back → List Poll
  | loop _ => []
  | wait _ _ polls => polls

def Site.waiting : Site → List Nat
  | step _ => []
  | take _ back => back.waiting
  | drain d => d.waiting

def Site.ahead : Site → List Poll
  | step _ => []
  | take _ back => back.ahead
  | drain d => d.polls.drop d.position

def Site.taken : Site → List Nat
  | take completed _ => completed
  | _ => []

namespace Pc

/-- The rest of the snapshot. -/
def waiting : Pc → List Nat
  | effect _ site | result _ site _ => site.waiting
  | take _ back => back.waiting
  | start next => next.waiting
  | woken _ waiting _ => waiting
  | drain d => d.waiting
  | _ => []

/-- The entries of the poll that are not read yet. -/
def ahead : Pc → List Poll
  | effect _ site | result _ site _ => site.ahead
  | take _ back => back.ahead
  | start next => next.ahead
  | woken _ _ polls => polls
  | drain d => d.polls.drop d.position
  | _ => []

def taken : Pc → List Nat
  | effect _ site | result _ site _ => site.taken
  | take completed _ => completed
  | start next => next.taken
  | _ => []

/-- The thread neither polls nor gives up. -/
def Plain : Pc → Prop
  | poll .. | deadlock => False
  | start next => next.Plain
  | _ => True

def running : Pc → List Nat
  | step _ a => [a]
  | effect a _ | result a _ .value => [a]
  | start next => next.running
  | _ => []

/-- The places of the thread of the program. -/
def places (pc : Pc) : List (Nat × Place) :=
  pc.waiting.map (·, Place.snapshot) ++ pc.taken.map (·, Place.taken) ++
    pc.running.map (·, Place.running)

end Pc

namespace Machine

variable (m : Machine P)

/-- The actions that wait on channels. -/
def inChannels : List Nat := m.rows.flatMap fun row => row.wait.map (·.task)

/-- The places in the queues. -/
def queues : List (Nat × Place) :=
  m.runs.map (·, Place.run) ++ m.park.map (·, Place.park) ++ m.jobs.map (·, Place.job) ++
    m.workers.map (·, Place.worker) ++ m.completed.map (·, Place.completed) ++
    m.inChannels.map (·, Place.channel)

/-- **Every action at its place.** -/
def places : List (Nat × Place) := m.queues ++ m.pc.places

end Machine

/-- An entry before it is answered. -/
def Poll.quiet (poll : Poll) : Poll := { poll with revents := 0 }

namespace Machine

/-- **The invariant of the places.** -/
structure Placed (m : Machine P) : Prop where
  nodup : m.owned.Nodup
  placed : (m.places.map (·.1)).Perm m.owned
  live : m.live = m.places.length
  busy : m.busy = m.places.countP (·.2.busy)
  flags : ∀ p ∈ m.places, (m.acts p.1).parked = p.2.parked

/-- The entries that are not read are those of the rest of the snapshot. -/
def Aligned (m : Machine P) : Prop :=
  ∃ extra, m.pc.ahead.map Poll.quiet = m.pollsOf m.pc.waiting ++ extra

/-- **The invariant of the scheduler.** -/
structure Sound (m : Machine P) : Prop extends Placed m where
  sane : m.rings.Sane
  aligned : m.Aligned
  phase : m.pc.Plain ∨
    (∃ turns wake wakeRead pollIn,
      m.pc = .poll turns wake (m.pollsOf m.park ++ wakePolls wake wakeRead pollIn)) ∨
    m.pc = .deadlock ∧ m.runs = [] ∧ m.park = [] ∧ m.busy = 0

end Machine

/-! ## 2. What a step does with the places -/

section Moves

variable {m m' : Machine P} {old new : List (Nat × Place)}

/-- An action has one place. -/
theorem Machine.Placed.unique (h : m.Placed) {a : Nat} {p q : Place} (hp : (a, p) ∈ m.places)
    (hq : (a, q) ∈ m.places) : p = q := by
  have hnodup : (m.places.map (·.1)).Nodup := h.placed.nodup_iff.mpr h.nodup
  have heq := List.inj_on_of_nodup_map hnodup hp hq rfl
  exact congrArg Prod.snd heq

/-- **Actions go from their places to others**, and only these are written. -/
theorem Machine.Placed.moves (h : m.Placed) (old new : List (Nat × Place))
    (htrade : Trade m.places old new m'.places)
    (hother : ∀ p ∈ new, p ∉ old)
    (howned : Trade m.owned (old.map (·.1)) (new.map (·.1)) m'.owned) (hnodup : m'.owned.Nodup)
    (hlive : m'.live + old.length = m.live + new.length)
    (hbusy : m'.busy + old.countP (·.2.busy) = m.busy + new.countP (·.2.busy))
    (hnew : ∀ p ∈ new, (m'.acts p.1).parked = p.2.parked)
    (hsame : ∀ a, a ∉ new.map (·.1) → m'.acts a = m.acts a) : m'.Placed := by
  have hplaced : (m'.places.map (·.1)).Perm m'.owned := by
    have hmap := List.Perm.map Prod.fst htrade
    rw [List.map_append, List.map_append] at hmap
    have hboth := hmap.trans ((h.placed.append_right _).trans (List.Perm.symm howned))
    exact (List.perm_append_right_iff _).mp hboth
  refine ⟨hnodup, hplaced, ?_, ?_, ?_⟩
  · have hlength := htrade.length
    have := h.live
    omega
  · have hcount := htrade.countP fun p => p.2.busy
    have := h.busy
    omega
  · rintro ⟨a, p⟩ hp
    by_cases ha : a ∈ new.map (·.1)
    · obtain ⟨⟨b, q⟩, hq, rfl⟩ := List.mem_map.mp ha
      have hq' : (b, q) ∈ m'.places := htrade.mem_new hq (hother _ hq)
      have hunique : (m'.places.map (·.1)).Nodup := hplaced.nodup_iff.mpr hnodup
      have heq := List.inj_on_of_nodup_map hunique hp hq' rfl
      rw [heq]
      exact hnew _ hq
    · rw [hsame a ha]
      rcases htrade.mem hp with hmem | hmem
      · exact h.flags _ hmem
      · exact absurd (List.mem_map.mpr ⟨_, hmem, rfl⟩) ha

theorem Machine.pollsOf_congr {actions : List Nat}
    (h : ∀ a ∈ actions, (m'.acts a).time = (m.acts a).time ∧ (m'.acts a).evts = (m.acts a).evts ∧
      (m'.acts a).descriptor = (m.acts a).descriptor) :
    m'.pollsOf actions = m.pollsOf actions := by
  induction actions with
  | nil => rfl
  | cons a actions ih =>
    obtain ⟨htime, hevts, hdescriptor⟩ := h a (List.mem_cons_self ..)
    have hrest := ih fun b hb => h b (List.mem_cons_of_mem _ hb)
    simp only [Machine.pollsOf] at hrest ⊢
    by_cases hzero : (m.acts a).time = 0
    · rw [List.filter_cons_of_pos (by simpa [htime] using hzero),
        List.filter_cons_of_pos (by simpa using hzero), List.map_cons, List.map_cons, hrest, hevts,
        hdescriptor]
    · rw [List.filter_cons_of_neg (by simpa [htime] using hzero),
        List.filter_cons_of_neg (by simpa using hzero), hrest]

/-- The rest of the snapshot stays, and what is put elsewhere is not in it. -/
theorem Machine.Aligned.stays (h : m.Aligned) (hplaced : m'.Placed)
    (htrade : Trade m.places old new m'.places) (hother : ∀ p ∈ new, p ∉ old)
    (helse : ∀ p ∈ new, p.2 ≠ .snapshot) (hwaiting : m'.pc.waiting = m.pc.waiting)
    (hahead : m'.pc.ahead = m.pc.ahead)
    (hsame : ∀ a, a ∉ new.map (·.1) → m'.acts a = m.acts a) : m'.Aligned := by
  have hacts : ∀ a ∈ m.pc.waiting, m'.acts a = m.acts a := by
    intro a ha
    refine hsame a fun hmem => ?_
    obtain ⟨⟨b, q⟩, hq, rfl⟩ := List.mem_map.mp hmem
    have hsnapshot : (b, Place.snapshot) ∈ m'.places := by
      refine List.mem_append_right _ (List.mem_append_left _ (List.mem_append_left _ ?_))
      rw [hwaiting]
      exact List.mem_map.mpr ⟨b, ha, rfl⟩
    exact helse _ hq (hplaced.unique (htrade.mem_new hq (hother _ hq)) hsnapshot)
  obtain ⟨extra, hextra⟩ := h
  refine ⟨extra, ?_⟩
  rw [hahead, hwaiting, hextra, Machine.pollsOf_congr fun a ha => ?_]
  rw [hacts a ha]
  exact ⟨rfl, rfl, rfl⟩

end Moves

/-! ## 3. The steps of the loops -/

section Loops

variable {m m' : Machine P}

/-- A step that leaves the snapshot alone. -/
theorem Machine.Sound.moves (h : m.Sound) (old new : List (Nat × Place))
    (htrade : Trade m.places old new m'.places) (hother : ∀ p ∈ new, p ∉ old)
    (helse : ∀ p ∈ new, p.2 ≠ .snapshot)
    (howned : Trade m.owned (old.map (·.1)) (new.map (·.1)) m'.owned) (hnodup : m'.owned.Nodup)
    (hlive : m'.live + old.length = m.live + new.length)
    (hbusy : m'.busy + old.countP (·.2.busy) = m.busy + new.countP (·.2.busy))
    (hnew : ∀ p ∈ new, (m'.acts p.1).parked = p.2.parked)
    (hsame : ∀ a, a ∉ new.map (·.1) → m'.acts a = m.acts a) (hsane : m'.rings.Sane)
    (hwaiting : m'.pc.waiting = m.pc.waiting) (hahead : m'.pc.ahead = m.pc.ahead)
    (hplain : m'.pc.Plain) : m'.Sound := by
  have hplaced := h.toPlaced.moves old new htrade hother howned hnodup hlive hbusy hnew hsame
  exact ⟨hplaced, hsane, h.aligned.stays hplaced htrade hother helse hwaiting hahead hsame,
    .inl hplain⟩

/-- The rows decide whether a table is sane. -/
theorem sane_of_rows {s s' : Rings P Nat} (h : s.Sane) (hrows : s'.rows = s.rows)
    (hidle : s'.idle = s.idle) : s'.Sane where
  rows := hrows ▸ h.rows
  chain := by
    rw [hrows, hidle]
    exact h.chain
  length := hrows ▸ h.length

/-- One action goes from one place to another. -/
theorem Machine.Sound.move (h : m.Sound) (a : Nat) (p q : Place)
    (htrade : Trade m.places [(a, p)] [(a, q)] m'.places) (hpq : p ≠ q) (helse : q ≠ .snapshot)
    (howned : m'.owned = m.owned) (hlive : m'.live = m.live)
    (hbusy : m'.busy + [p].countP Place.busy = m.busy + [q].countP Place.busy)
    (hflag : (m'.acts a).parked = q.parked) (hsame : ∀ b, b ≠ a → m'.acts b = m.acts b)
    (hsane : m'.rings.Sane)
    (hwaiting : m'.pc.waiting = m.pc.waiting) (hahead : m'.pc.ahead = m.pc.ahead)
    (hplain : m'.pc.Plain) : m'.Sound := by
  refine h.moves _ _ htrade ?_ ?_ ?_ (howned ▸ h.nodup) ?_ ?_ ?_ ?_ hsane hwaiting hahead hplain
  · intro r hr hr'
    rw [List.mem_singleton] at hr hr'
    rw [hr, Prod.mk.injEq] at hr'
    exact hpq hr'.2.symm
  · intro r hr
    rw [List.mem_singleton.mp hr]
    exact helse
  · rw [howned]
    exact List.Perm.refl _
  · simpa using hlive
  · simpa only [List.countP_cons, List.countP_nil] using hbusy
  · intro r hr
    rw [List.mem_singleton.mp hr]
    exact hflag
  · intro b hb
    exact hsame b (by simpa using hb)

theorem Machine.Placed.goTo (h : m.Placed) {pc : Pc} (hplaces : pc.places = m.pc.places) :
    (m.goTo pc).Placed := by
  have hsame : (m.goTo pc).places = m.places := congrArg (m.queues ++ ·) hplaces
  refine h.moves [] [] ?_ (by simp) (List.Perm.refl _) h.nodup rfl rfl (by simp) (fun _ _ => rfl)
  rw [hsame]
  exact List.Perm.refl _

/-- The thread of the program goes on with the same places. -/
theorem Machine.Sound.goTo (h : m.Sound) {pc : Pc} (hplaces : pc.places = m.pc.places)
    (hwaiting : pc.waiting = m.pc.waiting) (hahead : pc.ahead = m.pc.ahead) (hplain : pc.Plain) :
    (m.goTo pc).Sound := by
  refine ⟨h.toPlaced.goTo hplaces, sane_of_rows h.sane rfl rfl, ?_, .inl hplain⟩
  obtain ⟨extra, hextra⟩ := h.aligned
  rw [← hwaiting, ← hahead] at hextra
  exact ⟨extra, hextra⟩

theorem Back.places_pc (back : Back) : back.pc.waiting = back.waiting ∧
    back.pc.ahead = back.ahead ∧ back.pc.taken = [] ∧ back.pc.running = [] ∧ back.pc.Plain := by
  cases back with
  | loop turns => exact ⟨rfl, rfl, rfl, rfl, trivial⟩
  | wait turns waiting polls => exact ⟨rfl, rfl, rfl, rfl, trivial⟩

/-- The weight of the places, one by one. -/
theorem sum_places (m : Machine P) (weight : Nat × Place → Nat) : (m.places.map weight).sum =
    (m.runs.map fun a => weight (a, .run)).sum + (m.park.map fun a => weight (a, .park)).sum +
      (m.jobs.map fun a => weight (a, .job)).sum +
      (m.workers.map fun a => weight (a, .worker)).sum +
      (m.completed.map fun a => weight (a, .completed)).sum +
      (m.inChannels.map fun a => weight (a, .channel)).sum +
      ((m.pc.waiting.map fun a => weight (a, .snapshot)).sum +
        (m.pc.taken.map fun a => weight (a, .taken)).sum +
        (m.pc.running.map fun a => weight (a, .running)).sum) := by
  simp only [Machine.places, Machine.queues, Pc.places, List.map_append, List.sum_append,
    List.map_map, Function.comp_def]

theorem Machine.parked_setParked (m : Machine P) (a parked : Nat) :
    ((m.setParked a parked).acts a).parked = parked := by
  simp [Machine.setParked, Machine.write]

theorem Machine.Placed.run_flag (h : m.Placed) {a : Nat} (ha : a ∈ m.runs) :
    (m.acts a).parked = 0 :=
  h.flags (a, .run) (by simp [Machine.places, Machine.queues, ha])

theorem Machine.Placed.running_flag (h : m.Placed) {a : Nat} (ha : a ∈ m.pc.running) :
    (m.acts a).parked = 0 :=
  h.flags (a, .running) (by simp [Machine.places, Pc.places, ha])

/-- A job gets a thread. -/
theorem Machine.Sound.start (h : m.Sound) {a : Nat} {jobs : List Nat} (hplain : m.pc.Plain)
    (hjobs : m.jobs = a :: jobs) :
    Machine.Sound { m with jobs, active := m.active + 1, workers := m.workers ++ [a] } := by
  have hflag : (m.acts a).parked = 2 :=
    h.flags (a, .job) (by simp [Machine.places, Machine.queues, hjobs])
  refine h.move a .job .worker (.of_sums fun weight => ?_) (by decide)
    (by decide) rfl rfl rfl hflag (fun _ _ => rfl) (sane_of_rows h.sane rfl rfl) rfl rfl
    hplain
  simp only [sum_places, Machine.inChannels, hjobs, List.map_append, List.map_cons, List.map_nil,
    List.sum_append, List.sum_cons, List.sum_nil]
  omega

/-- The first of the run queue runs. -/
theorem Machine.Sound.pop (h : m.Sound) {turns a : Nat} {runs : List Nat}
    (hpc : m.pc = .pop turns) (hruns : m.runs = a :: runs) :
    ({ m with runs }.goTo (.step turns a)).Sound := by
  have hflag : (m.acts a).parked = 0 := h.run_flag (by rw [hruns]; exact List.mem_cons_self ..)
  refine h.move a .run .running (.of_sums fun weight => ?_) (by decide)
    (by decide) rfl rfl rfl hflag (fun _ _ => rfl) (sane_of_rows h.sane rfl rfl) (by rw [hpc]; rfl)
    (by rw [hpc]; rfl) trivial
  simp only [sum_places, Machine.inChannels, Machine.goTo, hpc, hruns, Pc.waiting, Pc.taken,
    Pc.running, List.map_cons, List.map_nil, List.sum_cons, List.sum_nil]
  omega

/-- The pack of a completed action runs. -/
theorem Machine.Sound.take (h : m.Sound) {a : Nat} {completed : List Nat} {back : Back}
    (hpc : m.pc = .take (a :: completed) back) :
    ({ m.setParked a 0 with busy := m.busy - 1 }.goTo
      (.effect a (.take completed back))).Sound := by
  have hbusy : 0 < m.busy := by
    rw [h.busy, List.countP_pos_iff]
    exact ⟨(a, .taken), by simp [Machine.places, Pc.places, hpc, Pc.taken], rfl⟩
  refine h.move a .taken .running (.of_sums fun weight => ?_) (by decide)
    (by decide) rfl rfl ?_ ?_ (fun b hb => Function.update_of_ne hb _ _)
    (sane_of_rows h.sane rfl rfl) (by rw [hpc]; rfl)
    (by rw [hpc]; rfl) trivial
  · simp only [sum_places, Machine.inChannels, Machine.goTo, Machine.setParked, Machine.write, hpc,
      Pc.waiting, Pc.taken, Pc.running, Site.waiting, Site.taken, List.map_cons, List.map_nil,
      List.sum_cons, List.sum_nil]
    omega
  · simp [Machine.goTo, Place.busy]
    omega
  · exact m.parked_setParked a 0

/-- A worker ends. -/
theorem Machine.Sound.worker (h : m.Sound) {i a : Nat} (hworker : m.workers[i]? = some a)
    (hrunning : m.stopped = false) (workerFailed wakeFailed : Bool) :
    Machine.Sound { m with
      workers := m.workers.eraseIdx i
      active := m.active - 1
      completed := if m.stopped then m.completed else m.completed ++ [a]
      workerFailed := m.workerFailed || workerFailed
      wakeFailed := m.wakeFailed || wakeFailed } := by
  have hmem : (a, Place.worker) ∈ m.places := by
    simp [Machine.places, Machine.queues, List.mem_of_getElem? hworker]
  have hflag : (m.acts a).parked = 2 := h.flags _ hmem
  have hplaced : Machine.Placed { m with
      workers := m.workers.eraseIdx i
      active := m.active - 1
      completed := if m.stopped then m.completed else m.completed ++ [a]
      workerFailed := m.workerFailed || workerFailed
      wakeFailed := m.wakeFailed || wakeFailed } := by
    refine h.toPlaced.moves [(a, .worker)] [(a, .completed)]
      (.of_sums fun weight => ?_) (by simp) (List.Perm.refl _) h.nodup rfl rfl
      (by simpa [Place.parked] using hflag)
      (fun _ _ => rfl)
    have herase := Library.sum_map_eraseIdx hworker fun a => weight (a, .worker)
    simp only [sum_places, Machine.inChannels, hrunning, Bool.false_eq_true, if_false,
      List.map_append, List.map_cons, List.map_nil, List.sum_append, List.sum_cons, List.sum_nil]
    omega
  refine ⟨hplaced, sane_of_rows h.sane rfl rfl, h.aligned, ?_⟩
  rcases h.phase with hplain | hpoll | ⟨-, -, -, hbusy⟩
  · exact .inl hplain
  · exact .inr (.inl hpoll)
  · rw [h.busy, List.countP_eq_zero] at hbusy
    exact absurd rfl (hbusy _ hmem)

/-- Another flag does not change what an action waits for. -/
theorem Machine.pollsOf_setParked (m : Machine P) (a parked : Nat) (actions : List Nat) :
    (m.setParked a parked).pollsOf actions = m.pollsOf actions := by
  refine Machine.pollsOf_congr fun b _ => ?_
  by_cases hb : b = a
  · subst hb
    simp [Machine.setParked, Machine.write]
  · simp [Machine.setParked, Machine.write, Function.update_of_ne hb]

/-- Answers do not change what the entries were written for. -/
theorem quiet_answered (polls : List Poll) (ready : Nat → Nat) :
    (answered polls ready).map Poll.quiet = polls.map Poll.quiet := by
  refine List.ext_getElem (by simp [answered]) fun i _ _ => ?_
  simp [answered, Poll.quiet]

theorem quiet_pollsOf (m : Machine P) (actions : List Nat) :
    (m.pollsOf actions).map Poll.quiet = m.pollsOf actions := by
  simp [Machine.pollsOf, Poll.quiet]

/-- What `io_wait` polls for. -/
theorem Machine.Sound.polled (h : m.Sound) {turns : Nat} {wake : Bool} {polls : List Poll}
    (hpc : m.pc = .poll turns wake polls) :
    ∃ wakeRead pollIn, polls = m.pollsOf m.park ++ wakePolls wake wakeRead pollIn := by
  rcases h.phase with hplain | ⟨turns', wake', wakeRead, pollIn, hpoll⟩ | ⟨hdeadlock, -⟩
  · rw [hpc] at hplain
    cases hplain
  · rw [hpc] at hpoll
    cases hpoll
    exact ⟨wakeRead, pollIn, rfl⟩
  · rw [hpc] at hdeadlock
    cases hdeadlock

/-- The park queue becomes the snapshot. -/
theorem Machine.Sound.snapshot (h : m.Sound) {turns : Nat} {wake : Bool} {polls : List Poll}
    (hpc : m.pc = .poll turns wake polls) (ready : Nat → Nat) {completed : List Nat} {pc : Pc}
    (hwaiting : pc.waiting = m.park) (hahead : pc.ahead = answered polls ready)
    (htaken : completed ++ pc.taken = m.completed) (hrunning : pc.running = [])
    (hplain : pc.Plain) :
    Machine.Sound { m with park := [], completed, pc } := by
  have hold : m.pc.waiting = [] ∧ m.pc.taken = [] ∧ m.pc.running = [] := by
    rw [hpc]
    exact ⟨rfl, rfl, rfl⟩
  refine ⟨h.toPlaced.moves (m.park.map (·, Place.park) ++ pc.taken.map (·, Place.completed))
    (m.park.map (·, Place.snapshot) ++ pc.taken.map (·, Place.taken))
    (.of_sums fun weight => ?_) ?_ ?_ h.nodup ?_ ?_ ?_ (fun _ _ => rfl), sane_of_rows h.sane rfl rfl, ?_, .inl hplain⟩
  · have hsum := congrArg (fun l => (l.map fun a => weight (a, .completed)).sum) htaken
    simp only [List.map_append, List.sum_append] at hsum
    simp only [sum_places, Machine.inChannels, hwaiting, hrunning, hold, List.map_append,
      List.map_map, Function.comp_def, List.sum_append, List.map_nil, List.sum_nil]
    omega
  · intro p hp hp'
    simp only [List.mem_append, List.mem_map] at hp hp'
    rcases hp with ⟨b, -, rfl⟩ | ⟨b, -, rfl⟩ <;>
      rcases hp' with ⟨c, -, hc⟩ | ⟨c, -, hc⟩ <;> cases hc
  · simp only [List.map_append, List.map_map, Function.comp_def, List.map_id']
    exact List.Perm.refl _
  · simp
  · simp [List.countP_append, List.countP_map, Function.comp_def, Place.busy]
  · intro p hp
    have hmem : (∃ a, (a, Place.park) ∈ m.places ∧ p = (a, .snapshot)) ∨
        ∃ a, (a, Place.completed) ∈ m.places ∧ p = (a, .taken) := by
      rcases List.mem_append.mp hp with hp | hp
      · obtain ⟨a, ha, rfl⟩ := List.mem_map.mp hp
        exact .inl ⟨a, by simp [Machine.places, Machine.queues, ha], rfl⟩
      · obtain ⟨a, ha, rfl⟩ := List.mem_map.mp hp
        have hin : a ∈ m.completed := htaken ▸ List.mem_append_right _ ha
        exact .inr ⟨a, by simp [Machine.places, Machine.queues, hin], rfl⟩
    rcases hmem with ⟨a, ha, rfl⟩ | ⟨a, ha, rfl⟩
    · exact h.flags (a, .park) ha
    · exact h.flags (a, .completed) ha
  · obtain ⟨wakeRead, pollIn, hpolls⟩ := h.polled hpc
    refine ⟨(wakePolls wake wakeRead pollIn).map Poll.quiet, ?_⟩
    have hquiet := quiet_answered polls ready
    rw [hpolls, List.map_append, quiet_pollsOf] at hquiet
    simp only [hahead, hwaiting]
    rw [hpolls]
    exact hquiet

/-- The first of the rest of the snapshot, and its entry. -/
theorem Machine.Aligned.first (h : m.Aligned) {d : Drain} {a : Nat} {waiting : List Nat}
    (hpc : m.pc = .drain d) (hwaiting : d.waiting = a :: waiting) :
    ((m.acts a).time = 0 → ∃ poll, d.polls[d.position]? = some poll ∧
      poll.quiet = ⟨some a, (m.acts a).descriptor, (m.acts a).evts, 0⟩) ∧
    ∃ extra, (d.polls.drop (m.due d a).2).map Poll.quiet = m.pollsOf waiting ++ extra := by
  obtain ⟨extra, hextra⟩ := h
  rw [hpc] at hextra
  simp only [Pc.ahead, Pc.waiting, hwaiting] at hextra
  by_cases hzero : (m.acts a).time = 0
  · have hpolls : m.pollsOf (a :: waiting) =
        ⟨some a, (m.acts a).descriptor, (m.acts a).evts, 0⟩ :: m.pollsOf waiting := by
      simp only [Machine.pollsOf]
      rw [List.filter_cons_of_pos (by simpa using hzero), List.map_cons]
    rw [hpolls, List.cons_append] at hextra
    obtain ⟨poll, rest, hdrop, hquiet, hrest⟩ := List.map_eq_cons_iff.mp hextra
    have hget : d.polls[d.position]? = some poll := by
      rw [← List.head?_drop, hdrop, List.head?_cons]
    refine ⟨fun _ => ⟨poll, hget, hquiet⟩, extra, ?_⟩
    have hnext : d.polls.drop (d.position + 1) = rest := by
      rw [← List.drop_drop, hdrop, List.drop_one, List.tail_cons]
    simpa [Machine.due, hzero, hnext] using hrest
  · refine ⟨fun h => absurd h hzero, extra, ?_⟩
    have hpolls : m.pollsOf (a :: waiting) = m.pollsOf waiting := by
      simp only [Machine.pollsOf]
      rw [List.filter_cons_of_neg (by simpa using hzero)]
    rw [hpolls] at hextra
    simpa [Machine.due, hzero] using hextra

end Loops

/-! ## 4. Effects and packs -/

section Effects

variable {m m' : Machine P} {a : Nat} {site : Site}

/-- The code of an effect starts jobs before its return is looked at, or does not. -/
theorem Effect.starting_places (effect : Effect P) (pc : Pc) :
    (effect.starting pc).waiting = pc.waiting ∧ (effect.starting pc).ahead = pc.ahead ∧
      (effect.starting pc).taken = pc.taken ∧ (effect.starting pc).running = pc.running := by
  cases effect <;> exact ⟨rfl, rfl, rfl, rfl⟩

theorem Effect.starting_plain (effect : Effect P) (a : Nat) (site : Site) (r : Return) :
    (effect.starting (.result a site r)).Plain := by
  cases effect <;> exact trivial

/-- **An effect that returns a value**: some actions that waited on a channel and some new ones are
runnable. -/
theorem Machine.Sound.value (h : m.Sound) (hpc : m.pc = .effect a site) (effect : Effect P)
    (woken spawned : List Nat)
    (htrade : Trade m.queues (woken.map (·, .channel)) ((woken ++ spawned).map (·, .run)) m'.queues)
    (howned : m'.owned = spawned ++ m.owned) (hfresh : m'.owned.Nodup)
    (hlive : m'.live = m.live + spawned.length) (hbusy : m'.busy = m.busy)
    (hrunnable : ∀ b ∈ woken ++ spawned, (m'.acts b).parked = 0)
    (hsame : ∀ b, b ∉ woken ++ spawned → m'.acts b = m.acts b) (hsane : m'.rings.Sane) :
    (m'.goTo (effect.starting (.result a site .value))).Sound := by
  obtain ⟨hwaiting, hahead, htaken, hrunning⟩ :=
    effect.starting_places (.result a site .value)
  refine h.moves (woken.map (·, .channel)) ((woken ++ spawned).map (·, .run))
    ?_ ?_ ?_ ?_ hfresh ?_ ?_ ?_ ?_ (sane_of_rows hsane rfl rfl) ?_ ?_
    (effect.starting_plain a site .value)
  · have hplaces : (m'.goTo (effect.starting (.result a site .value))).places =
        m'.queues ++ m.pc.places := by
      rw [Machine.places, Pc.places, Pc.places, hpc]
      simp only [Machine.goTo, hwaiting, htaken, hrunning]
      rfl
    rw [hplaces]
    refine .of_sums fun weight => ?_
    have hsum := htrade.sum weight
    simp only [Machine.places, List.map_append, List.sum_append] at hsum ⊢
    omega
  · intro p hp hp'
    obtain ⟨b, -, rfl⟩ := List.mem_map.mp hp
    obtain ⟨c, -, hc⟩ := List.mem_map.mp hp'
    cases hc
  · intro p hp
    obtain ⟨b, -, rfl⟩ := List.mem_map.mp hp
    exact Place.noConfusion
  · have hold : (woken.map (·, Place.channel)).map (·.1) = woken := by simp [Function.comp_def]
    have hnew : ((woken ++ spawned).map (·, Place.run)).map (·.1) = woken ++ spawned := by
      simp [Function.comp_def]
    rw [hold, hnew]
    refine .of_sums fun weight => ?_
    simp only [Machine.goTo, howned, List.map_append, List.sum_append]
    omega
  · simp only [Machine.goTo, hlive, List.length_map, List.length_append]
    omega
  · simp [Machine.goTo, hbusy, List.countP_map, Function.comp_def, Place.busy]
  · intro p hp
    obtain ⟨b, hb, rfl⟩ := List.mem_map.mp hp
    exact hrunnable b hb
  · intro b hb
    exact hsame b (by simpa using hb)
  · exact hwaiting.trans (by rw [hpc]; rfl)
  · exact hahead.trans (by rw [hpc]; rfl)

/-- **An effect that parks** leaves its action at another place. -/
theorem Machine.Sound.park (h : m.Sound) (hpc : m.pc = .effect a site) (effect : Effect P)
    (dest : Place) (hdest : dest ≠ .running ∧ dest ≠ .snapshot)
    (htrade : Trade m.queues [] [(a, dest)] m'.queues) (howned : m'.owned = m.owned)
    (hlive : m'.live = m.live) (hbusy : m'.busy = m.busy + [dest].countP Place.busy)
    (hflag : (m'.acts a).parked = dest.parked) (hsame : ∀ b, b ≠ a → m'.acts b = m.acts b)
    (hsane : m'.rings.Sane) : (m'.goTo (effect.starting (.result a site .park))).Sound := by
  obtain ⟨hwaiting, hahead, htaken, hrunning⟩ :=
    effect.starting_places (.result a site .park)
  refine h.move a .running dest (.of_sums fun weight => ?_) hdest.1.symm hdest.2
    howned hlive ?_ hflag hsame (sane_of_rows hsane rfl rfl) ?_ ?_
    (effect.starting_plain a site .park)
  · have hsum := htrade.sum weight
    have hqueues : (m'.goTo (effect.starting (.result a site .park))).queues = m'.queues := rfl
    rw [Machine.places, hqueues, Pc.places, Machine.places, Pc.places, hpc]
    simp only [Machine.goTo, hwaiting, htaken, hrunning, Pc.waiting, Pc.taken, Pc.running,
      List.map_append, List.sum_append, List.map_cons, List.map_nil, List.sum_cons,
      List.sum_nil] at hsum ⊢
    omega
  · simp only [Machine.goTo, hbusy, List.countP_cons, List.countP_nil, Place.busy]
    simp
  · exact hwaiting.trans (by rw [hpc]; rfl)
  · exact hahead.trans (by rw [hpc]; rfl)

/-- Actions are woken one after the other. -/
theorem foldl_wake (wakes : List (Wake P Nat)) (m : Machine P) :
    wakes.foldl Machine.wake m = { m with
        acts := (wakes.foldl Machine.wake m).acts
        runs := m.runs ++ wakes.map (·.continuation) } ∧
      (∀ b ∈ wakes.map (·.continuation), ((wakes.foldl Machine.wake m).acts b).parked = 0) ∧
      ∀ b, b ∉ wakes.map (·.continuation) → (wakes.foldl Machine.wake m).acts b = m.acts b := by
  induction wakes generalizing m with
  | nil => simp
  | cons w wakes ih =>
    obtain ⟨hfields, hwoken, hother⟩ := ih (m.wake w)
    rw [List.foldl_cons]
    refine ⟨?_, fun b hb => ?_, fun b hb => ?_⟩
    · rw [hfields]
      simp [Machine.wake, Machine.pushRun, Machine.setParked, Machine.write]
    · by_cases hmem : b ∈ wakes.map (·.continuation)
      · exact hwoken b hmem
      · rw [hother b hmem]
        rw [List.map_cons] at hb
        obtain rfl := (List.mem_cons.mp hb).resolve_right hmem
        exact m.parked_setParked _ 0
    · rw [List.map_cons, List.mem_cons, not_or] at hb
      rw [hother b hb.2]
      exact Function.update_of_ne hb.1 _ _

/-- The queues when only the rows and the run queue change. -/
theorem trade_queues (old new runs : List Nat) (htrade : Trade m.inChannels old new m'.inChannels)
    (hruns : m'.runs = m.runs ++ runs) (hpark : m'.park = m.park) (hjobs : m'.jobs = m.jobs)
    (hworkers : m'.workers = m.workers) (hcompleted : m'.completed = m.completed) :
    Trade m.queues (old.map (·, .channel)) (runs.map (·, Place.run) ++ new.map (·, Place.channel))
      m'.queues := by
  refine .of_sums fun weight => ?_
  have hsum := htrade.sum fun a => weight (a, .channel)
  simp only [Machine.queues, hruns, hpark, hjobs, hworkers, hcompleted, List.map_append,
    List.sum_append, List.map_map, Function.comp_def] at hsum ⊢
  omega

/-- **A call on a channel** keeps the invariant. -/
theorem Machine.Sound.served (h : m.Sound) (hpc : m.pc = .effect a site) (effect : Effect P)
    {r : Transition P Nat × Rings P Nat} (hserves : Serves m.rings a r) :
    ((m.served a r).2.goTo (effect.starting (.result a site (m.served a r).1))).Sound := by
  obtain ⟨hfields, hwoken, hother⟩ := foldl_wake r.1.wakes (m.setRings r.2)
  have htrade : Trade m.inChannels (r.1.wakes.map (·.continuation)) (r.1.parking a)
      (m.setRings r.2).inChannels := hserves.trade
  cases houtcome : r.1.outcome with
  | Ready answer =>
    simp only [Machine.served, houtcome]
    rw [Channels.Transition.parking, houtcome] at htrade
    have hqueues : Trade m.queues ((r.1.wakes.map (·.continuation)).map (·, .channel))
        ((r.1.wakes.map (·.continuation)).map (·, Place.run) ++
          ([] : List Nat).map (·, Place.channel))
        (r.1.wakes.foldl Machine.wake (m.setRings r.2)).queues :=
      trade_queues _ _ _ (by rw [hfields]; exact htrade) (by rw [hfields]; rfl)
        (by rw [hfields]; rfl) (by rw [hfields]; rfl) (by rw [hfields]; rfl) (by rw [hfields]; rfl)
    refine h.value hpc effect (r.1.wakes.map (·.continuation)) [] ?_ (by rw [hfields]; rfl) ?_
      (by rw [hfields]; rfl) (by rw [hfields]; rfl) ?_ ?_
      (sane_of_rows hserves.sane (by rw [hfields]; rfl) (by rw [hfields]; rfl))
    · simpa using hqueues
    · rw [hfields]
      exact h.nodup
    · simpa using hwoken
    · intro b hb
      exact hother b (by simpa using hb)
  | Parked =>
    have halone := hserves.alone houtcome
    rw [halone, Channels.Transition.parking, houtcome] at htrade
    simp only [Machine.served, houtcome, halone, List.foldl_nil]
    have hqueues : Trade m.queues [] [(a, .channel)] ((m.setRings r.2).setParked a 3).queues :=
      trade_queues [] [a] [] htrade (by rw [List.append_nil]; rfl) rfl rfl rfl rfl
    exact h.park hpc effect .channel (by decide) hqueues rfl rfl rfl
      (Machine.parked_setParked _ a 3) (fun b hb => Function.update_of_ne hb _ _)
      (sane_of_rows hserves.sane rfl rfl)

/-- **Every effect keeps the invariant.** -/
theorem Machine.Sound.perform (h : m.Sound) (hpc : m.pc = .effect a site) (effect : Effect P)
    (hfresh : ∀ action, effect = .spawn action → action ∉ m.owned) {result : Return}
    (hresult : m.perform a effect = .ok (result, m')) :
    (m'.goTo (effect.starting (.result a site result))).Sound := by
  cases effect with
  | plain =>
    cases hresult
    exact h.value hpc .plain [] [] (List.Perm.refl _) rfl h.nodup rfl rfl
      (by simp) (fun _ _ => rfl) h.sane
  | spawn b =>
    have hb := hfresh b rfl
    simp only [Machine.perform, Machine.ioSpawn] at hresult
    split at hresult
    · cases hresult
    · cases hresult
      refine h.value hpc (.spawn b) [] [b] (.of_sums fun weight => ?_) rfl
        (List.nodup_cons.mpr ⟨hb, h.nodup⟩) rfl rfl ?_ ?_ (sane_of_rows h.sane rfl rfl)
      · simp [Machine.queues, Machine.inChannels, Machine.pushRun, Machine.write]
        omega
      · intro c hc
        obtain rfl := List.mem_singleton.mp hc
        simp [Machine.pushRun, Machine.write]
      · intro c hc
        exact Function.update_of_ne (by simpa using hc) _ _
  | chanNew room =>
    simp only [Machine.perform] at hresult
    rcases Rings.open_serves h.sane room with ⟨message, herror⟩ | ⟨raw, s, hopen, hsane, htrade⟩
    · rw [herror] at hresult
      cases hresult
    · rw [hopen] at hresult
      cases hresult
      have hqueues : Trade m.queues [] [] (m.setRings s).queues :=
        trade_queues [] [] [] htrade (by rw [List.append_nil]; rfl) rfl rfl rfl rfl
      exact h.value hpc (.chanNew room) [] [] hqueues rfl h.nodup rfl rfl
        (by simp) (fun _ _ => rfl) (sane_of_rows hsane rfl rfl)
  | send raw payload =>
    simp only [Machine.perform] at hresult
    rcases Rings.send_serves h.sane raw payload a with ⟨-, herror⟩ | ⟨r, hsend, hserves⟩
    · rw [herror] at hresult
      cases hresult
    · rw [hsend] at hresult
      have hserved := h.served hpc (.send raw payload) hserves
      rwa [Except.ok.inj hresult] at hserved
  | recv raw =>
    simp only [Machine.perform] at hresult
    rcases Rings.recv_serves h.sane raw a with ⟨-, herror⟩ | ⟨r, hrecv, hserves⟩
    · rw [herror] at hresult
      cases hresult
    · rw [hrecv] at hresult
      have hserved := h.served hpc (.recv raw) hserves
      rwa [Except.ok.inj hresult] at hserved
  | close raw =>
    simp only [Machine.perform] at hresult
    obtain ⟨r, hclose, hserves, -⟩ := Rings.close_serves h.sane raw a
    rw [hclose] at hresult
    have hserved := h.served hpc (.close raw) hserves
    rwa [Except.ok.inj hresult] at hserved
  | wait descriptor events =>
    simp only [Machine.perform, Machine.ioWaitOn] at hresult
    split at hresult
    · cases hresult
    · cases hresult
      refine h.park hpc (.wait descriptor events) .park (by decide)
        (.of_sums fun weight => ?_) rfl rfl rfl (by simp [Machine.write, Place.parked])
        (fun b hb => Function.update_of_ne hb _ _) (sane_of_rows h.sane rfl rfl)
      simp [Machine.queues, Machine.inChannels, Machine.write]
      omega
  | work =>
    simp only [Machine.perform, Machine.ioWork] at hresult
    split at hresult
    · cases hresult
    · cases hresult
      refine h.park hpc .work .job (by decide) (.of_sums fun weight => ?_) rfl rfl rfl
        (Machine.parked_setParked m a 2) (fun b hb => Function.update_of_ne hb _ _)
        (sane_of_rows h.sane rfl rfl)
      simp [Machine.queues, Machine.inChannels, Machine.setParked, Machine.write]
      omega

/-- The code behind a call puts the action where it runs on. -/
theorem Machine.Sound.resume (h : m.Sound) {result : Return} (hpc : m.pc = .result a site result) :
    (m.resume a site result).Sound := by
  cases result with
  | park =>
    cases site <;>
      exact h.goTo (by rw [hpc]; rfl) (by rw [hpc]; rfl) (by rw [hpc]; rfl) trivial
  | value =>
    have hflag : (m.acts a).parked = 0 := h.running_flag (by simp [hpc, Pc.running])
    cases site with
    | step turns =>
      exact h.goTo (by rw [hpc]; rfl) (by rw [hpc]; rfl) (by rw [hpc]; rfl) trivial
    | take completed back =>
      refine h.move a .running .run (.of_sums fun weight => ?_) (by decide)
        (by decide) rfl rfl rfl hflag (fun _ _ => rfl) (sane_of_rows h.sane rfl rfl)
        (by rw [hpc]; rfl) (by rw [hpc]; rfl) trivial
      simp [sum_places, Machine.inChannels, Machine.resume, Machine.goTo, Machine.pushRun, hpc,
        Pc.waiting, Pc.taken, Pc.running, Site.waiting, Site.taken]
      omega
    | drain d =>
      refine h.move a .running .run (.of_sums fun weight => ?_) (by decide)
        (by decide) rfl rfl rfl hflag (fun _ _ => rfl) (sane_of_rows h.sane rfl rfl)
        (by rw [hpc]; rfl) (by rw [hpc]; rfl) trivial
      simp [sum_places, Machine.inChannels, Machine.resume, Machine.goTo, Machine.pushRun, hpc,
        Pc.waiting, Pc.taken, Pc.running, Site.waiting, Site.taken]
      omega

end Effects

/-! ## 5. Every step -/

section Steps

variable {m m' : Machine P}

/-- A request that has to wait leaves the run. -/
theorem Machine.Sound.needs (h : m.Sound) {turns a : Nat} (hpc : m.pc = .step turns a) {act : IoAct}
    (hparked : act.parked = 1) :
    ({ m.write a act with park := m.park ++ [a] }.goTo (.turn (turns + 1))).Sound := by
  refine h.move a .running .park (.of_sums fun weight => ?_) (by decide) (by decide) rfl rfl rfl ?_
    (fun b hb => Function.update_of_ne hb _ _) (sane_of_rows h.sane rfl rfl) (by rw [hpc]; rfl)
    (by rw [hpc]; rfl) trivial
  · simp [sum_places, Machine.inChannels, Machine.goTo, Machine.write, hpc, Pc.waiting, Pc.taken,
      Pc.running]
    omega
  · simp [Machine.goTo, Machine.write, hparked, Place.parked]

theorem ioWaitOn_eq {a events : Nat} {descriptor : Int}
    (h : m.ioWaitOn a descriptor events = .ok m') :
    m' = { m.write a ⟨0, events, descriptor, 1⟩ with park := m.park ++ [a] } := by
  simp only [Machine.ioWaitOn] at h
  split at h
  · cases h
  · exact (Except.ok.inj h).symm

/-- The computation of the running action is over. -/
theorem Machine.Sound.emit (h : m.Sound) {turns a : Nat} (hpc : m.pc = .step turns a) :
    ((m.ioDispose a).goTo (.turn (turns + 1))).Sound := by
  have hmem : (a, Place.running) ∈ m.places := by simp [Machine.places, Pc.places, hpc, Pc.running]
  have howned : a ∈ m.owned := h.placed.mem_iff.mp (List.mem_map.mpr ⟨_, hmem, rfl⟩)
  have hlive : 0 < m.live := by
    rw [h.live]
    exact List.length_pos_of_mem hmem
  refine h.moves [(a, .running)] [] (.of_sums fun weight => ?_) (by simp) (by simp)
    (.of_sums fun weight => ?_) (h.nodup.erase a) ?_ rfl (by simp) (fun _ _ => rfl)
    (sane_of_rows h.sane rfl rfl) (by rw [hpc]; rfl) (by rw [hpc]; rfl) trivial
  · simp [sum_places, Machine.inChannels, Machine.goTo, Machine.ioDispose, hpc, Pc.waiting,
      Pc.taken, Pc.running]
  · have hsum := ((List.perm_cons_erase howned).map weight).sum_nat
    simp only [Machine.goTo, Machine.ioDispose, List.map_cons, List.map_nil, List.sum_cons,
      List.sum_nil] at hsum ⊢
    omega
  · simp only [Machine.goTo, Machine.ioDispose, List.length_cons, List.length_nil]
    omega

/-- An action of the snapshot whose turn has not come parks again. -/
theorem Machine.Sound.notDue (h : m.Sound) {d : Drain} {a : Nat} {waiting : List Nat}
    (hpc : m.pc = .drain d) (hwaiting : d.waiting = a :: waiting) :
    ({ m with park := m.park ++ [a] }.goTo
      (.drain { d with waiting, position := (m.due d a).2 })).Sound := by
  have hflag : (m.acts a).parked = 1 :=
    h.flags (a, .snapshot) (by simp [Machine.places, Pc.places, hpc, Pc.waiting, hwaiting])
  refine ⟨h.toPlaced.moves [(a, .snapshot)] [(a, .park)] (.of_sums fun weight => ?_) (by simp)
    (List.Perm.refl _) h.nodup rfl rfl (by simpa [Place.parked, Machine.goTo] using hflag)
    (fun _ _ => rfl), sane_of_rows h.sane rfl rfl, (h.aligned.first hpc hwaiting).2, .inl trivial⟩
  simp [sum_places, Machine.inChannels, Machine.goTo, hpc, hwaiting, Pc.waiting, Pc.taken,
    Pc.running]
  omega

/-- An action of the snapshot goes on. -/
theorem Machine.Sound.due (h : m.Sound) {d : Drain} {a : Nat} {waiting : List Nat}
    (hpc : m.pc = .drain d) (hwaiting : d.waiting = a :: waiting) :
    ((m.setParked a 0).goTo
      (.effect a (.drain { d with waiting, position := (m.due d a).2 }))).Sound := by
  refine ⟨h.toPlaced.moves [(a, .snapshot)] [(a, .running)] (.of_sums fun weight => ?_) (by simp)
    (List.Perm.refl _) h.nodup rfl rfl ?_ ?_, sane_of_rows h.sane rfl rfl, ?_,
    .inl trivial⟩
  · simp [sum_places, Machine.inChannels, Machine.goTo, Machine.setParked, Machine.write, hpc,
      hwaiting, Pc.waiting, Pc.taken, Pc.running, Site.waiting, Site.taken]
    omega
  · simpa [Machine.goTo, Place.parked] using m.parked_setParked a 0
  · intro b hb
    exact Function.update_of_ne (by simpa using hb) _ _
  · obtain ⟨extra, hextra⟩ := (h.aligned.first hpc hwaiting).2
    exact ⟨extra, hextra.trans (congrArg (· ++ extra) (m.pollsOf_setParked a 0 waiting).symm)⟩

/-- `io_loop` takes the completed actions. -/
theorem Machine.Sound.look (h : m.Sound) {turns : Nat} (hpc : m.pc = .turn turns) :
    (m.detach (.loop turns)).Sound := by
  refine h.moves (m.completed.map (·, .completed)) (m.completed.map (·, .taken))
    (.of_sums fun weight => ?_) ?_ ?_
    (List.Perm.of_eq (by simp [Function.comp_def, Machine.detach]))
    h.nodup (by simp [Machine.detach]) ?_ ?_ (fun _ _ => rfl) (sane_of_rows h.sane rfl rfl)
    (by rw [hpc]; rfl) (by rw [hpc]; rfl) trivial
  · simp [sum_places, Machine.inChannels, Machine.detach, hpc, Pc.waiting, Pc.taken, Pc.running,
      Back.waiting, Function.comp_def]
    omega
  · intro p hp hp'
    obtain ⟨b, -, rfl⟩ := List.mem_map.mp hp
    obtain ⟨c, -, hc⟩ := List.mem_map.mp hp'
    cases hc
  · intro p hp
    obtain ⟨b, -, rfl⟩ := List.mem_map.mp hp
    exact Place.noConfusion
  · simp [Machine.detach, List.countP_map, Function.comp_def, Place.busy]
  · intro p hp
    obtain ⟨b, hb, rfl⟩ := List.mem_map.mp hp
    exact h.flags (b, .completed) (by simp [Machine.places, Machine.queues, hb])

theorem Machine.Sound.plain_of_start (h : m.Sound) {next : Pc} (hpc : m.pc = .start next) :
    m.pc.Plain := by
  rcases h.phase with hplain | ⟨turns, wake, wakeRead, pollIn, hpoll⟩ | ⟨hdeadlock, -⟩
  · exact hplain
  · rw [hpc] at hpoll
    cases hpoll
  · rw [hpc] at hdeadlock
    cases hdeadlock

/-- **Every step keeps the invariant**, up to the return of `io_loop`. -/
theorem Machine.Sound.step (h : m.Sound) (hrunning : m.stopped = false) (hstep : Step m m')
    (hgoes : m'.stopped = false) : m'.Sound := by
  cases hstep with
  | finish | giveUp | halt => cases hgoes
  | deadlock hpc hruns _ hpark hbusy =>
    exact ⟨h.toPlaced.goTo (by rw [hpc]; rfl), sane_of_rows h.sane rfl rfl, ⟨[], rfl⟩,
      .inr (.inr ⟨rfl, hruns, hpark, hbusy⟩)⟩
  | wait hpc _ _ _ wakeRead pollIn =>
    exact ⟨h.toPlaced.goTo (by rw [hpc]; rfl), sane_of_rows h.sane rfl rfl, ⟨[], rfl⟩,
      .inr (.inl ⟨_, _, wakeRead, pollIn, rfl⟩)⟩
  | polled hpc ready => exact h.snapshot hpc ready rfl rfl (List.append_nil _) rfl trivial
  | notified hpc ready => exact h.snapshot hpc ready rfl rfl rfl rfl trivial
  | tick hpc => exact h.goTo (by rw [hpc]; rfl) (by rw [hpc]; rfl) (by rw [hpc]; rfl) trivial
  | notDue hpc hwaiting => exact h.notDue hpc hwaiting
  | due hpc hwaiting => exact h.due hpc hwaiting
  | drained hpc hwaiting =>
    refine ⟨h.toPlaced.goTo ?_, sane_of_rows h.sane rfl rfl, ⟨[], rfl⟩, .inl trivial⟩
    simp [hpc, Pc.places, Pc.waiting, Pc.taken, Pc.running, hwaiting]
  | look hpc => exact h.look hpc
  | noLook hpc => exact h.goTo (by rw [hpc]; rfl) (by rw [hpc]; rfl) (by rw [hpc]; rfl) trivial
  | take hpc => exact h.take hpc
  | @taken back hpc =>
    obtain ⟨hwaiting, hahead, htaken, hnobody, hplain⟩ := back.places_pc
    refine h.goTo ?_ (hwaiting.trans (by rw [hpc]; rfl)) (hahead.trans (by rw [hpc]; rfl)) hplain
    rw [hpc, Pc.places, Pc.waiting, Pc.taken, Pc.running, hwaiting, htaken, hnobody]
    rfl
  | start hpc hjobs => exact h.start (h.plain_of_start hpc) hjobs
  | started hpc =>
    have hplain := h.plain_of_start hpc
    rw [hpc] at hplain
    exact h.goTo (by rw [hpc]; rfl) (by rw [hpc]; rfl) (by rw [hpc]; rfl) hplain
  | pop hpc hruns => exact h.pop hpc hruns
  | emit hpc => exact h.emit hpc
  | request hpc => exact h.goTo (by rw [hpc]; rfl) (by rw [hpc]; rfl) (by rw [hpc]; rfl) trivial
  | needRead hpc descriptor pollIn hwait =>
    cases ioWaitOn_eq hwait
    exact h.needs hpc rfl
  | needTime hpc first pollIn hwait now =>
    cases ioWaitOn_eq hwait
    have hneeds := @Machine.Sound.needs _ _ h _ _ hpc
      ⟨Machine.deadline now (first % 2 ^ 32 * 1000000), pollIn, first, 1⟩ rfl
    simpa [Machine.write, Machine.goTo] using hneeds
  | perform hpc effect hfresh hresult => exact h.perform hpc effect hfresh hresult
  | resume hpc => exact h.resume hpc
  | worker hworker => exact h.worker hworker hrunning _ _

/-- An effect does not stop the host. -/
theorem perform_stopped {a : Nat} {effect : Effect P} {result : Return}
    (h : m.perform a effect = .ok (result, m')) : m'.stopped = m.stopped := by
  have hserved : ∀ r : Transition P Nat × Rings P Nat, (m.served a r).2.stopped = m.stopped := by
    intro r
    obtain ⟨hfields, -, -⟩ := foldl_wake r.1.wakes (m.setRings r.2)
    cases houtcome : r.1.outcome with
    | Ready answer =>
      simp only [Machine.served, houtcome]
      rw [hfields]
      rfl
    | Parked =>
      simp only [Machine.served, houtcome, Machine.setParked, Machine.write]
      rw [hfields]
      rfl
  cases effect with
  | plain =>
    cases h
    rfl
  | spawn b =>
    simp only [Machine.perform, Machine.ioSpawn] at h
    split at h
    · cases h
    · cases h
      rfl
  | chanNew room =>
    simp only [Machine.perform] at h
    cases hopen : m.rings.open room with
    | error e =>
      rw [hopen] at h
      cases h
    | ok r =>
      rw [hopen] at h
      cases h
      rfl
  | send raw payload =>
    simp only [Machine.perform] at h
    cases hsend : m.rings.send raw payload a with
    | error e =>
      rw [hsend] at h
      cases h
    | ok r =>
      rw [hsend] at h
      exact congrArg (·.2.stopped) (Except.ok.inj h).symm |>.trans (hserved r)
  | recv raw =>
    simp only [Machine.perform] at h
    cases hrecv : m.rings.recv raw a with
    | error e =>
      rw [hrecv] at h
      cases h
    | ok r =>
      rw [hrecv] at h
      exact congrArg (·.2.stopped) (Except.ok.inj h).symm |>.trans (hserved r)
  | close raw =>
    simp only [Machine.perform] at h
    cases hclose : m.rings.close raw with
    | error e =>
      rw [hclose] at h
      cases h
    | ok r =>
      rw [hclose] at h
      exact congrArg (·.2.stopped) (Except.ok.inj h).symm |>.trans (hserved r)
  | wait descriptor events =>
    simp only [Machine.perform, Machine.ioWaitOn] at h
    split at h
    · cases h
    · cases h
      rfl
  | work =>
    simp only [Machine.perform, Machine.ioWork] at h
    split at h
    · cases h
    · cases h
      rfl

/-- A host that was stopped stays so. -/
theorem Step.stopped (h : Step m m') (hgoes : m'.stopped = false) : m.stopped = false := by
  cases h with
  | finish | giveUp | halt => cases hgoes
  | needRead hpc descriptor pollIn hwait =>
    cases ioWaitOn_eq hwait
    exact hgoes
  | needTime hpc first pollIn hwait now =>
    cases ioWaitOn_eq hwait
    exact hgoes
  | perform hpc effect hfresh hresult => exact (perform_stopped hresult).symm.trans hgoes
  | @resume a site result hpc =>
    cases site <;> cases result <;> exact hgoes
  | _ => exact hgoes

/-- **The invariant holds in every state** up to the return of `io_loop`. -/
theorem Reached.sound (h : Reached m) (hrunning : m.stopped = false) : m.Sound := by
  induction h with
  | @main m a h =>
    cases h
    refine ⟨⟨List.nodup_singleton a, List.Perm.refl _, rfl, rfl, ?_⟩,
      sane_of_rows Channels.sane_start rfl rfl, ⟨[], rfl⟩, .inl trivial⟩
    intro p hp
    have hplaces : p = (a, .run) := List.mem_singleton.mp hp
    rw [hplaces]
    exact congrArg IoAct.parked (if_pos rfl)
  | step _ hstep ih =>
    exact (ih (hstep.stopped hrunning)).step (hstep.stopped hrunning) hstep hrunning

end Steps

/-! ## 6. No task is lost -/

end TeamyBend.Runtime.IoLoop
