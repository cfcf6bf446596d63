/-
# The order of a mixed wake

Timers and parked requests take their numbers from one counter, so the order of the numbers is
the order in which the tasks began to wait.  `resume_network` merges the timers that are due with
the requests that are ready: before each request it wakes the timers with a smaller number, and a
request that has to wait again gets a new number in the middle of the merge.

`Numbered` says that the numbers are in use once and were all given out; every call of the
request code keeps it.  `resumeAll` is the whole loop of `resume_network`, and the run lemma
(`resumed_spec`) says what it wakes and what it leaves, turn by turn of the loop.
-/
import TeamyBend.Runtime.NetworkOwnership

namespace TeamyBend.Runtime.Driver

variable {T : Type}

/-! ## 1. Numbers of the waits -/

/-- Every number of a wait was given out, to one timer or to one request, and the timers are in
the order of their numbers. -/
structure Numbered (s : Scheduler.State T) (n : Network.State T) : Prop where
  sorted : s.timers.Pairwise (·.order < ·.order)
  timer_lt : ∀ timer ∈ s.timers, timer.order < s.nextWait
  pending_lt : ∀ order ∈ n.pending, order < s.nextWait
  apart : ∀ timer ∈ s.timers, timer.order ∉ n.pending
  limit : s.nextWait ≤ u64Max

section Numbered

variable {s s' : Scheduler.State T} {n n' : Network.State T}

theorem numbered_default : Numbered (T := T) .default .default where
  sorted := .nil
  timer_lt timer h := by cases h
  pending_lt order h := absurd h (AList.notMem_empty order)
  apart timer h := by cases h
  limit := Nat.zero_le _

/-- Timers and requests can only leave. -/
theorem Numbered.fewer (h : Numbered s n) (htimers : s'.timers.Sublist s.timers)
    (hnext : s'.nextWait = s.nextWait) (hpending : ∀ order ∈ n'.pending, order ∈ n.pending) :
    Numbered s' n' where
  sorted := h.sorted.sublist htimers
  timer_lt timer htimer := by
    rw [hnext]
    exact h.timer_lt timer (htimers.subset htimer)
  pending_lt order horder := by
    rw [hnext]
    exact h.pending_lt order (hpending order horder)
  apart timer htimer horder := h.apart timer (htimers.subset htimer) (hpending _ horder)
  limit := by
    rw [hnext]
    exact h.limit

theorem reserveWait_spec {order : Nat} (h : s.reserveWait = .ok (order, s')) :
    order = s.nextWait ∧ s.nextWait ≠ u64Max ∧ s' = { s with nextWait := s.nextWait + 1 } := by
  unfold Scheduler.State.reserveWait at h
  split at h
  · cases h
  · rename_i hlimit
    cases h
    exact ⟨rfl, hlimit, rfl⟩

/-- A timer gets the next number. -/
theorem Numbered.sleep (h : Numbered s n) {deadline : Nat} {action : T}
    (hsleep : s.sleep deadline action = .ok s') : Numbered s' n := by
  unfold Scheduler.State.sleep at hsleep
  split at hsleep
  · cases hsleep
  · obtain ⟨⟨order, reserved⟩, hreserve, hsleep⟩ := bind_eq_ok hsleep
    obtain ⟨rfl, hlimit, rfl⟩ := reserveWait_spec hreserve
    cases hsleep
    have hbelow := h.limit
    refine ⟨?_, ?_, fun order horder => Nat.lt_succ_of_lt (h.pending_lt order horder), ?_, ?_⟩
    · rw [List.pairwise_append]
      refine ⟨h.sorted, List.pairwise_singleton _ _, ?_⟩
      intro timer htimer last hlast
      rw [List.mem_singleton.mp hlast]
      exact h.timer_lt timer htimer
    · intro timer htimer
      rcases List.mem_append.mp htimer with hold | hnew
      · exact Nat.lt_succ_of_lt (h.timer_lt timer hold)
      · rw [List.mem_singleton.mp hnew]
        exact Nat.lt_succ_self _
    · intro timer htimer horder
      rcases List.mem_append.mp htimer with hold | hnew
      · exact h.apart timer hold horder
      · rw [List.mem_singleton.mp hnew] at horder
        exact Nat.lt_irrefl _ (h.pending_lt _ horder)
    · change s.nextWait + 1 ≤ u64Max
      omega

/-- A request gets the next number. -/
theorem Numbered.park (h : Numbered s n) {order : Nat} {request : Network.Request T}
    (hreserve : s.reserveWait = .ok (order, s')) (hpark : n.park order request = .ok n') :
    Numbered s' n' := by
  obtain ⟨rfl, hlimit, rfl⟩ := reserveWait_spec hreserve
  obtain ⟨-, -, -, -, -, -, -, hpending, -⟩ := Network.State.park_spec hpark
  have hbelow := h.limit
  refine ⟨h.sorted, fun timer htimer => Nat.lt_succ_of_lt (h.timer_lt timer htimer), ?_, ?_, ?_⟩
  · intro order horder
    rw [hpending, AList.mem_insert] at horder
    rcases horder with rfl | hold
    · exact Nat.lt_succ_self _
    · exact Nat.lt_succ_of_lt (h.pending_lt order hold)
  · intro timer htimer horder
    rw [hpending, AList.mem_insert] at horder
    rcases horder with heq | hold
    · exact Nat.ne_of_lt (h.timer_lt timer htimer) heq
    · exact h.apart timer htimer hold
  · change s.nextWait + 1 ≤ u64Max
    omega

/-- **Every call keeps the numbers apart.** -/
theorem Numbered.act {d d' : Desk T} (h : Numbered d.scheduler d.network)
    (hact : Desk.Act d d') : Numbered d'.scheduler d'.network := by
  cases hact with
  | tasks htimers hnext =>
    exact h.fewer (by rw [htimers]) hnext fun order horder => horder
  | sleep hsleep => exact h.sleep hsleep
  | wake now order =>
    exact h.fewer List.filter_sublist rfl fun order horder => horder
  | insert hinsert | settle hhand hinsert =>
    obtain ⟨-, -, -, hpending, -⟩ := Network.State.insert_spec hinsert
    exact h.fewer (.refl _) rfl (by rw [hpending]; exact fun order horder => horder)
  | take hhand htake =>
    obtain ⟨-, -, hpending, -⟩ := Network.State.take_spec htake
    exact h.fewer (.refl _) rfl (by rw [hpending]; exact fun order horder => horder)
  | restore hhand hrestore =>
    obtain ⟨-, -, -, hpending, -⟩ := Network.State.restore_spec hrestore
    exact h.fewer (.refl _) rfl (by rw [hpending]; exact fun order horder => horder)
  | park hhand hconnect hreserve hpark => exact h.park hreserve hpark
  | takePending hhand htake =>
    obtain ⟨-, -, -, -, -, hpending, -⟩ := Network.State.takePending_spec htake
    exact h.fewer (.refl _) rfl (by
      rw [hpending]
      exact fun order horder => (AList.mem_erase.mp horder).2)
  | receive | giveUp | close => exact h

/-- **The numbers of all that waits are distinct**, in every reached desk. -/
theorem Desk.Reached.numbered {d : Desk T} (h : d.Reached) : Numbered d.scheduler d.network := by
  induction h with
  | refl => exact numbered_default
  | tail _ hact ih => exact ih.act hact

end Numbered

namespace Machine

variable {m m' : Machine T} {w : World T} {now : Nat}

/-! ## 2. A turn of `resume_network` -/

/-- A socket that was accepted changes no request. -/
theorem acceptSocket_pending {n n' : Network.State T} {operation : Network.Operation}
    (h : acceptSocket w n operation = .ok n') : n'.pending = n.pending := by
  unfold acceptSocket at h
  split at h
  · obtain ⟨⟨handle, network⟩, hinsert, h⟩ := lift_bind_eq_ok h
    cases h
    obtain ⟨-, -, -, hpending, -⟩ := Network.State.insert_spec hinsert
    exact hpending
  · cases h
    rfl

/-- What advancing a request did: its answer changes no wait, and otherwise it is parked again
under the next number. -/
theorem advanceNetwork_spec {request : Network.Request T} {isAnswered : Bool}
    (h : advanceNetwork w m request = .ok (isAnswered, m')) :
    (waitsWith w request.operation = none ∧ isAnswered = true ∧ m'.scheduler = m.scheduler ∧
      m'.network.pending = m.network.pending) ∨
    ∃ operation, waitsWith w request.operation = some operation ∧ isAnswered = false ∧
      m.scheduler.nextWait ≠ u64Max ∧
      m'.scheduler = { m.scheduler with nextWait := m.scheduler.nextWait + 1 } ∧
      m'.network.pending =
        m.network.pending.insert m.scheduler.nextWait { request with operation } := by
  obtain ⟨_, _, h⟩ := bind_eq_ok h
  split at h
  · rename_i operation hwaits
    obtain ⟨parked, hpark, h⟩ := bind_eq_ok h
    cases h
    obtain ⟨⟨order, scheduler⟩, hreserve, hpark⟩ := lift_bind_eq_ok hpark
    obtain ⟨network, hparked, heq⟩ := lift_bind_eq_ok hpark
    cases heq
    obtain ⟨rfl, hlimit, rfl⟩ := reserveWait_spec hreserve
    obtain ⟨-, -, -, -, -, -, -, hpending, -⟩ := Network.State.park_spec hparked
    exact .inr ⟨operation, hwaits, rfl, hlimit, rfl, hpending⟩
  · rename_i hwaits
    left
    split at h
    · split at h
      · obtain ⟨⟨handle, network⟩, hinsert, h⟩ := lift_bind_eq_ok h
        cases h
        obtain ⟨-, -, -, hpending, -⟩ := Network.State.insert_spec hinsert
        exact ⟨hwaits, rfl, rfl, hpending⟩
      · cases h
        exact ⟨hwaits, rfl, rfl, rfl⟩
    · obtain ⟨network, haccept, h⟩ := bind_eq_ok h
      split at h
      · cases h
      · obtain ⟨network', hrestore, h⟩ := lift_bind_eq_ok h
        cases h
        obtain ⟨-, -, -, hrestored, -⟩ := Network.State.restore_spec hrestore
        exact ⟨hwaits, rfl, rfl, hrestored.trans (acceptSocket_pending haccept)⟩

/-- The timers that a time wakes, each with its number. -/
def dueTimers (now : Nat) (timers : List (Scheduler.Timer T)) : List (Nat × T) :=
  (timers.filter fun timer => decide (timer.deadline ≤ now)).map fun timer =>
    (timer.order, timer.action)

/-- The ready requests that are answered, each with its number and with the action that goes on. -/
def answeredRequests (pending : AList fun _ : Nat => Network.Request T)
    (turns : List (Nat × World T)) : List (Nat × T) :=
  turns.filterMap fun turn => (pending.lookup turn.1).bind fun request =>
    if (waitsWith turn.2 request.operation).isNone then some (turn.1, turn.2.allocated) else none

/-- The ready requests that have to wait again, as they are parked. -/
def waitingRequests (pending : AList fun _ : Nat => Network.Request T)
    (turns : List (Nat × World T)) : List (Network.Request T) :=
  turns.filterMap fun turn => (pending.lookup turn.1).bind fun request =>
    (waitsWith turn.2 request.operation).map fun operation => { request with operation }

/-- What turns of `resume_network` do to the parked requests: those that are resumed leave, the
others stay, and those that have to wait again follow under the numbers after the last. -/
structure Parks (turns : List (Nat × World T)) (m m' : Machine T) : Prop where
  nextWait : m'.scheduler.nextWait =
    m.scheduler.nextWait + (waitingRequests m.network.pending turns).length
  old : ∀ order < m.scheduler.nextWait, m'.network.pending.lookup order =
    if order ∈ turns.map Prod.fst then none else m.network.pending.lookup order
  new : ∀ i, m'.network.pending.lookup (m.scheduler.nextWait + i) =
    (waitingRequests m.network.pending turns)[i]?
  limit : m'.scheduler.nextWait ≤ u64Max

theorem lookup_erase_eq {β : Type} (s : AList fun _ : Nat => β) (a b : Nat) :
    (s.erase a).lookup b = if b = a then none else s.lookup b := by
  split
  · rename_i heq
    rw [heq, AList.lookup_erase]
  · rename_i hne
    exact AList.lookup_erase_ne hne

/-- One turn. -/
theorem resumeNetwork_spec {order : Nat} {orders : List Nat}
    (hm : Numbered m.scheduler m.network)
    (h : resumeNetwork w m now (order :: orders) = .ok m') :
    m'.phase = .network orders now ∧ Parks [(order, w)] m m' ∧
      m'.scheduler.timers = (m.scheduler.wakeBefore now order).timers ∧
      m'.scheduler.ready = (m.scheduler.wakeBefore now order).ready ++
        (answeredRequests m.network.pending [(order, w)]).map Prod.snd := by
  obtain ⟨request, network, isAnswered, next, htake, hadvance, hresume, heq⟩ :=
    resumeNetwork_eq_ok h
  obtain ⟨-, -, -, -, hlookup, hpending, -⟩ := Network.State.takePending_spec htake
  have hnumbers : ∀ i, m.network.pending.lookup (m.scheduler.nextWait + i) = none := by
    intro i
    refine AList.lookup_eq_none.mpr fun hmem => ?_
    have hlt := hm.pending_lt _ hmem
    omega
  have hphase : m'.phase = .network orders now := by rw [heq]
  have hnetwork : m'.network = next.network := by rw [heq]
  rcases advanceNetwork_spec hadvance with
    ⟨hwaits, rfl, hscheduler, hsame⟩ | ⟨operation, hwaits, rfl, hlimit, hscheduler, hinsert⟩
  · have hwaiting : waitingRequests m.network.pending [(order, w)] = [] := by
      simp [waitingRequests, hlookup, hwaits]
    have hanswered : answeredRequests m.network.pending [(order, w)] = [(order, w.allocated)] := by
      simp [answeredRequests, hlookup, hwaits]
    have hpending' : m'.network.pending = m.network.pending.erase order := by
      rw [hnetwork, hsame, hpending]
    have hscheduler' := resume_eq_ok hresume
    rw [hscheduler] at hscheduler'
    refine ⟨hphase, ⟨?_, fun old hold => ?_, fun i => ?_, ?_⟩, ?_, ?_⟩
    · rw [hscheduler', hwaiting]
      rfl
    · rw [hpending', lookup_erase_eq]
      simp
    · rw [hpending', lookup_erase_eq, hnumbers, hwaiting]
      simp
    · rw [hscheduler']
      exact hm.limit
    · rw [hscheduler']
    · rw [hscheduler', hanswered]
      rfl
  · have hwaiting :
        waitingRequests m.network.pending [(order, w)] = [{ request with operation }] := by
      simp [waitingRequests, hlookup, hwaits]
    have hanswered : answeredRequests m.network.pending [(order, w)] = [] := by
      simp [answeredRequests, hlookup, hwaits]
    have hpending' : m'.network.pending = (m.network.pending.erase order).insert
        m.scheduler.nextWait { request with operation } := by
      rw [hnetwork, hinsert, hpending]
      rfl
    have hscheduler' : m'.scheduler = next.scheduler := by simpa using hresume.symm
    rw [hscheduler] at hscheduler'
    refine ⟨hphase, ⟨?_, fun old hold => ?_, fun i => ?_, ?_⟩, ?_, ?_⟩
    · rw [hscheduler', hwaiting]
      rfl
    · rw [hpending', AList.lookup_insert_ne (Nat.ne_of_lt hold), lookup_erase_eq]
      simp
    · cases i with
      | zero =>
        rw [hpending', hwaiting]
        exact AList.lookup_insert _
      | succ i =>
        rw [hpending', AList.lookup_insert_ne (by omega), lookup_erase_eq, hnumbers, hwaiting]
        simp
    · have hbelow := hm.limit
      have hfree : m.scheduler.nextWait ≠ u64Max := hlimit
      rw [hscheduler']
      change m.scheduler.nextWait + 1 ≤ u64Max
      omega
    · rw [hscheduler']
    · rw [hscheduler', hanswered]
      exact (List.append_nil _).symm

/-! ## 3. The loop of `resume_network` -/

section Turns

variable {turn : Nat × World T} {turns : List (Nat × World T)}
  {p q : AList fun _ : Nat => Network.Request T}

theorem answeredRequests_congr (h : ∀ turn ∈ turns, p.lookup turn.1 = q.lookup turn.1) :
    answeredRequests p turns = answeredRequests q turns :=
  List.filterMap_congr fun turn hturn => by rw [h turn hturn]

theorem waitingRequests_congr (h : ∀ turn ∈ turns, p.lookup turn.1 = q.lookup turn.1) :
    waitingRequests p turns = waitingRequests q turns :=
  List.filterMap_congr fun turn hturn => by rw [h turn hturn]

theorem answeredRequests_cons (p : AList fun _ : Nat => Network.Request T)
    (turn : Nat × World T) (turns : List (Nat × World T)) :
    answeredRequests p (turn :: turns) = answeredRequests p [turn] ++ answeredRequests p turns :=
  List.filterMap_append (l := [turn])

theorem waitingRequests_cons (p : AList fun _ : Nat => Network.Request T)
    (turn : Nat × World T) (turns : List (Nat × World T)) :
    waitingRequests p (turn :: turns) = waitingRequests p [turn] ++ waitingRequests p turns :=
  List.filterMap_append (l := [turn])

/-- An answered request has the number of a turn. -/
theorem order_of_mem_answered {entry : Nat × T} (h : entry ∈ answeredRequests p turns) :
    entry.1 ∈ turns.map Prod.fst := by
  obtain ⟨turn, hturn, hentry⟩ := List.mem_filterMap.mp h
  obtain ⟨request, -, hentry⟩ := Option.bind_eq_some_iff.mp hentry
  split at hentry
  · cases hentry
    exact List.mem_map_of_mem hturn
  · cases hentry

/-- Requests are answered in the order of their numbers. -/
theorem answeredRequests_sorted (h : (turns.map Prod.fst).Pairwise (· < ·)) :
    (answeredRequests p turns).Pairwise (·.1 < ·.1) := by
  refine List.pairwise_filterMap.mpr ((List.pairwise_map.mp h).imp ?_)
  intro turn later hlt entry hentry next hnext
  have hfirst : entry ∈ answeredRequests p [turn] :=
    List.mem_filterMap.mpr ⟨turn, List.mem_singleton_self _, hentry⟩
  have hsecond : next ∈ answeredRequests p [later] :=
    List.mem_filterMap.mpr ⟨later, List.mem_singleton_self _, hnext⟩
  rwa [List.mem_singleton.mp (order_of_mem_answered hfirst),
    List.mem_singleton.mp (order_of_mem_answered hsecond)]

/-- The requests of the later turns are not touched by a turn. -/
theorem Parks.later {m₁ : Machine T} (h : Parks [turn] m m₁)
    (hlt : ∀ later ∈ turns, later.1 < m.scheduler.nextWait)
    (hne : ∀ later ∈ turns, later.1 ≠ turn.1) :
    ∀ later ∈ turns, m₁.network.pending.lookup later.1 = m.network.pending.lookup later.1 := by
  intro later hlater
  rw [h.old later.1 (hlt later hlater), if_neg]
  simpa using hne later hlater

/-- A request that still waits is parked again. -/
theorem Parks.cons {m₁ m₂ : Machine T} (hfirst : Parks [turn] m m₁) (hrest : Parks turns m₁ m₂)
    (hlt : ∀ later ∈ turns, later.1 < m.scheduler.nextWait)
    (hne : ∀ later ∈ turns, later.1 ≠ turn.1) : Parks (turn :: turns) m m₂ := by
  have hsame := waitingRequests_congr (hfirst.later hlt hne)
  have hfirstNext := hfirst.nextWait
  have hrestNext := hrest.nextWait
  rw [hsame] at hrestNext
  have hnew := hrest.new
  rw [hsame] at hnew
  refine ⟨?_, fun order horder => ?_, fun i => ?_, hrest.limit⟩
  · rw [waitingRequests_cons, List.length_append]
    omega
  · rw [hrest.old order (by omega), hfirst.old order horder]
    simp only [List.map_cons, List.map_nil, List.mem_cons, List.not_mem_nil, or_false]
    split
    · rename_i hmem
      rw [if_pos (.inr hmem)]
    · rename_i hnot
      simp only [hnot, or_false]
  · rw [waitingRequests_cons]
    rcases Nat.lt_or_ge i (waitingRequests m.network.pending [turn]).length with hi | hi
    · -- parked again by the first turn, and the later turns are for smaller numbers
      have hnot : m.scheduler.nextWait + i ∉ turns.map Prod.fst := by
        intro hmem
        obtain ⟨later, hlater, heq⟩ := List.mem_map.mp hmem
        have hbelow := hlt later hlater
        omega
      rw [List.getElem?_append_left hi, hrest.old _ (by omega), if_neg hnot, hfirst.new]
    · have heq : m.scheduler.nextWait + i = m₁.scheduler.nextWait +
          (i - (waitingRequests m.network.pending [turn]).length) := by omega
      rw [List.getElem?_append_right hi, heq, hnew]

/-- What is parked afterwards has numbers that were given out, and fewer timers have them. -/
theorem Parks.numbered (h : Parks turns m m') (hm : Numbered m.scheduler m.network)
    (htimers : m'.scheduler.timers.Sublist m.scheduler.timers) :
    Numbered m'.scheduler m'.network := by
  have hnext := h.nextWait
  refine ⟨hm.sorted.sublist htimers, fun timer htimer => ?_, fun order horder => ?_,
    fun timer htimer horder => ?_, h.limit⟩
  · have hlt := hm.timer_lt timer (htimers.subset htimer)
    omega
  · by_contra hge
    have hsome := AList.lookup_isSome.mpr horder
    obtain ⟨i, rfl⟩ := Nat.exists_eq_add_of_le
      (show m.scheduler.nextWait ≤ order by omega)
    rw [h.new, List.getElem?_eq_none (by omega)] at hsome
    cases hsome
  · have hold := htimers.subset htimer
    have hsome := AList.lookup_isSome.mpr horder
    rw [h.old timer.order (hm.timer_lt timer hold)] at hsome
    split at hsome
    · cases hsome
    · exact hm.apart timer hold (AList.lookup_isSome.mp hsome)

end Turns

/-- `Machine::resume_network`: one turn of its loop for each order, with what the host says in it,
and then the timers that are left. -/
def resumeAll (now : Nat) : List (Nat × World T) → Machine T → Except Failure (Machine T)
  | [], m => .ok { m with scheduler := m.scheduler.wake now }
  | (order, w) :: turns, m => do
    let m ← resumeNetwork w m now (order :: turns.map Prod.fst)
    resumeAll now turns m

theorem step_network {orders : List Nat} (hphase : m.phase = .network orders now)
    (hw : w.proceeds = true) : step w m = resumeNetwork w m now orders := by
  rw [step, hw, hphase]
  rfl

/-- The steps of the driver at that place are `resumeAll`, and then the rest of `wait_for_task`. -/
theorem steps_network {turns : List (Nat × World T)}
    (hphase : m.phase = .network (turns.map Prod.fst) now)
    (hturns : ∀ turn ∈ turns, turn.2.proceeds = true) (hw : w.proceeds = true) :
    (turns.map Prod.snd ++ [w]).foldlM (fun m w => step w m) m =
      (resumeAll now turns m).map (wait w) := by
  induction turns generalizing m with
  | nil =>
    rw [List.map_nil, List.nil_append, List.foldlM_cons, step_network hphase hw]
    rfl
  | cons turn turns ih =>
    obtain ⟨order, w₁⟩ := turn
    have hstep := step_network hphase (hturns (order, w₁) List.mem_cons_self)
    rw [List.map_cons] at hstep
    rw [List.map_cons, List.cons_append, List.foldlM_cons, hstep, resumeAll]
    cases hresume : resumeNetwork w₁ m now (order :: turns.map Prod.fst) with
    | error e => rfl
    | ok m₁ =>
      have hphase₁ : m₁.phase = .network (turns.map Prod.fst) now := by
        obtain ⟨_, _, _, _, -, -, -, heq⟩ := resumeNetwork_eq_ok hresume
        rw [heq]
      exact ih hphase₁ fun later hlater => hturns later (List.mem_cons_of_mem _ hlater)

/-! ## 4. What a wake appends -/

section Timers

variable {timers : List (Scheduler.Timer T)} {order : Nat}

theorem isDue_le {timer : Scheduler.Timer T} (h : Scheduler.State.isDue now order timer = true) :
    timer.deadline ≤ now ∧ timer.order < order := by
  simpa [Scheduler.State.isDue] using h

/-- Every timer that is due wakes before the first number that is not in use. -/
theorem isDue_last {timer : Scheduler.Timer T} (h : timer.order < u64Max) :
    Scheduler.State.isDue now u64Max timer = decide (timer.deadline ≤ now) := by
  simp [Scheduler.State.isDue, h]

/-- The timers that wake before a request, each with its number. -/
def firstTimers (now order : Nat) (timers : List (Scheduler.Timer T)) : List (Nat × T) :=
  (timers.filter (Scheduler.State.isDue now order)).map fun timer => (timer.order, timer.action)

/-- The timers that wake before a request, and those that wake after it. -/
theorem dueTimers_split (now order : Nat) (timers : List (Scheduler.Timer T)) :
    (dueTimers now timers).Perm
      (firstTimers now order timers ++
        dueTimers now (timers.filter fun timer => !Scheduler.State.isDue now order timer)) := by
  have hbefore : timers.filter (Scheduler.State.isDue now order) =
      (timers.filter fun timer => decide (timer.deadline ≤ now)).filter
        (Scheduler.State.isDue now order) := by
    rw [List.filter_filter]
    refine List.filter_congr fun timer _ => ?_
    cases hdue : Scheduler.State.isDue now order timer with
    | false => rfl
    | true => simp [(isDue_le hdue).1]
  have hafter := List.filter_comm (l := timers) (fun timer => decide (timer.deadline ≤ now))
    fun timer => !Scheduler.State.isDue now order timer
  rw [dueTimers, firstTimers, dueTimers, hbefore, hafter, ← List.map_append]
  exact (List.filter_append_perm _ _).symm.map _

/-- The numbers of the timers that are due increase. -/
theorem dueTimers_sorted (h : timers.Pairwise (·.order < ·.order)) :
    (dueTimers now timers).Pairwise (·.1 < ·.1) :=
  List.pairwise_map.mpr (h.sublist List.filter_sublist)

theorem firstTimers_sorted (h : timers.Pairwise (·.order < ·.order)) :
    (firstTimers now order timers).Pairwise (·.1 < ·.1) :=
  List.pairwise_map.mpr (h.sublist List.filter_sublist)

theorem mem_dueTimers {entry : Nat × T} :
    entry ∈ dueTimers now timers ↔
      ∃ timer ∈ timers, timer.deadline ≤ now ∧ (timer.order, timer.action) = entry := by
  simp [dueTimers, and_assoc]

/-- A timer that is due and does not wake before a request has a larger number. -/
theorem order_lt_of_left (hm : Numbered m.scheduler m.network) (horder : order ∈ m.network.pending)
    {timer : Scheduler.Timer T}
    (htimer : timer ∈ m.scheduler.timers.filter fun timer =>
      !Scheduler.State.isDue now order timer)
    (hdue : timer.deadline ≤ now) : order < timer.order := by
  obtain ⟨hmem, hnot⟩ := List.mem_filter.mp htimer
  have hne : timer.order ≠ order := fun heq => hm.apart timer hmem (heq ▸ horder)
  have hge : order ≤ timer.order := by simpa [Scheduler.State.isDue, hdue] using hnot
  omega

end Timers

/-- The later turns have larger numbers, all given out. -/
theorem later_turns {order : Nat} {turns : List (Nat × World T)}
    (hm : Numbered m.scheduler m.network)
    (hsorted : (((order, w) :: turns).map Prod.fst).Pairwise (· < ·))
    (hpending : ∀ turn ∈ (order, w) :: turns, turn.1 ∈ m.network.pending) :
    (∀ later ∈ turns, order < later.1) ∧
      ∀ later ∈ turns, later.1 < m.scheduler.nextWait :=
  ⟨fun later h => (List.pairwise_cons.mp hsorted).1 later.1 (List.mem_map_of_mem h),
    fun later h => hm.pending_lt _ (hpending later (List.mem_cons_of_mem _ h))⟩

/-- What a turn leaves for the later turns. -/
theorem resumeNetwork_later {order : Nat} {turns : List (Nat × World T)}
    (hm : Numbered m.scheduler m.network)
    (hsorted : (((order, w) :: turns).map Prod.fst).Pairwise (· < ·))
    (hpending : ∀ turn ∈ (order, w) :: turns, turn.1 ∈ m.network.pending)
    (h : resumeNetwork w m now (order :: turns.map Prod.fst) = .ok m') :
    Numbered m'.scheduler m'.network ∧ (turns.map Prod.fst).Pairwise (· < ·) ∧
      ∀ turn ∈ turns, turn.1 ∈ m'.network.pending := by
  obtain ⟨-, hparks, htimers, -⟩ := resumeNetwork_spec hm h
  obtain ⟨hlater, hlt⟩ := later_turns hm hsorted hpending
  have hsublist : m'.scheduler.timers.Sublist m.scheduler.timers := by
    rw [htimers]
    exact List.filter_sublist
  refine ⟨hparks.numbered hm hsublist, (List.pairwise_cons.mp hsorted).2, fun turn hturn => ?_⟩
  have hne : ∀ later ∈ turns, later.1 ≠ order := fun later h => Nat.ne_of_gt (hlater later h)
  rw [← AList.lookup_isSome, hparks.later hlt hne turn hturn, AList.lookup_isSome]
  exact hpending turn (List.mem_cons_of_mem _ hturn)

/-- **The run lemma**: what the loop of `resume_network` wakes, in which order, and what it
leaves. -/
theorem resumed_spec {turns : List (Nat × World T)} (hm : Numbered m.scheduler m.network)
    (hsorted : (turns.map Prod.fst).Pairwise (· < ·))
    (hpending : ∀ turn ∈ turns, turn.1 ∈ m.network.pending)
    (h : resumeAll now turns m = .ok m') :
    Parks turns m m' ∧
      m'.scheduler.timers = m.scheduler.timers.filter (fun timer => decide (now < timer.deadline)) ∧
      ∃ woken : List (Nat × T), woken.Pairwise (·.1 < ·.1) ∧
        woken.Perm (dueTimers now m.scheduler.timers ++
          answeredRequests m.network.pending turns) ∧
        m'.scheduler.ready = m.scheduler.ready ++ woken.map Prod.snd := by
  induction turns generalizing m with
  | nil =>
    cases h
    have hlast : ∀ timer ∈ m.scheduler.timers, Scheduler.State.isDue now u64Max timer =
        decide (timer.deadline ≤ now) := fun timer htimer =>
      isDue_last (Nat.lt_of_lt_of_le (hm.timer_lt timer htimer) hm.limit)
    refine ⟨⟨rfl, fun order _ => rfl, fun i => ?_, hm.limit⟩, ?_,
      dueTimers now m.scheduler.timers, dueTimers_sorted hm.sorted, ?_, ?_⟩
    · refine AList.lookup_eq_none.mpr fun hmem => ?_
      have hlt := hm.pending_lt _ hmem
      omega
    · refine List.filter_congr fun timer htimer => ?_
      rw [hlast timer htimer, ← decide_not]
      simp
    · exact .of_eq (List.append_nil _).symm
    · rw [dueTimers, List.map_map]
      change m.scheduler.ready ++ _ = m.scheduler.ready ++ _
      rw [List.filter_congr hlast]
      rfl
  | cons turn turns ih =>
    obtain ⟨order, w⟩ := turn
    obtain ⟨m₁, hresume, hrest⟩ := bind_eq_ok h
    obtain ⟨-, hparks, htimers, hready⟩ := resumeNetwork_spec hm hresume
    have htimers₁ : m₁.scheduler.timers = m.scheduler.timers.filter fun timer =>
        !Scheduler.State.isDue now order timer := htimers
    obtain ⟨hlater, hlt⟩ := later_turns hm hsorted hpending
    have hne : ∀ later ∈ turns, later.1 ≠ order := fun later h => Nat.ne_of_gt (hlater later h)
    obtain ⟨hm₁, hsorted₁, hpending₁⟩ := resumeNetwork_later hm hsorted hpending hresume
    obtain ⟨hparks₁, hleft, woken, hincreasing, hwoken, hready₁⟩ := ih hm₁ hsorted₁ hpending₁ hrest
    rw [answeredRequests_congr (hparks.later hlt hne)] at hwoken
    refine ⟨hparks.cons hparks₁ hlt hne, ?_, ?_⟩
    · rw [hleft, htimers₁, List.filter_filter]
      refine List.filter_congr fun timer _ => ?_
      cases hdue : Scheduler.State.isDue now order timer with
      | false => simp
      | true => simp [(isDue_le hdue).1]
    · obtain ⟨hbefore, hafter⟩ : (∀ entry ∈ firstTimers now order m.scheduler.timers,
          entry.1 < order) ∧ ∀ entry ∈ woken, order < entry.1 := by
        refine ⟨fun entry hentry => ?_, fun entry hentry => ?_⟩
        · obtain ⟨timer, htimer, rfl⟩ := List.mem_map.mp hentry
          exact (isDue_le (List.mem_filter.mp htimer).2).2
        · rcases List.mem_append.mp (hwoken.mem_iff.mp hentry) with hdue | hanswered
          · obtain ⟨timer, htimer, hle, rfl⟩ := mem_dueTimers.mp hdue
            exact order_lt_of_left hm (hpending _ List.mem_cons_self) (htimers₁ ▸ htimer) hle
          · obtain ⟨later, hturn, heq⟩ := List.mem_map.mp (order_of_mem_answered hanswered)
            exact heq ▸ hlater later hturn
      have hmiddle : ∀ entry ∈ answeredRequests m.network.pending [(order, w)],
          entry.1 = order := fun entry hentry => by
        simpa using order_of_mem_answered hentry
      refine ⟨firstTimers now order m.scheduler.timers ++
        (answeredRequests m.network.pending [(order, w)] ++ woken), ?_, ?_, ?_⟩
      · rw [List.pairwise_append, List.pairwise_append]
        refine ⟨firstTimers_sorted hm.sorted,
          ⟨answeredRequests_sorted (List.pairwise_singleton _ _), hincreasing, ?_⟩, ?_⟩
        · intro entry hentry later hmem
          rw [hmiddle entry hentry]
          exact hafter later hmem
        · intro entry hentry later hmem
          rcases List.mem_append.mp hmem with hmid | hmem
          · rw [hmiddle later hmid]
            exact hbefore entry hentry
          · exact Nat.lt_trans (hbefore entry hentry) (hafter later hmem)
      · have hdue := dueTimers_split now order m.scheduler.timers
        rw [← htimers₁] at hdue
        calc
          List.Perm _ (firstTimers now order m.scheduler.timers ++
              (answeredRequests m.network.pending [(order, w)] ++
                (dueTimers now m₁.scheduler.timers ++
                  answeredRequests m.network.pending turns))) :=
            (hwoken.append_left _).append_left _
          List.Perm _ (firstTimers now order m.scheduler.timers ++
              (dueTimers now m₁.scheduler.timers ++
                (answeredRequests m.network.pending [(order, w)] ++
                  answeredRequests m.network.pending turns))) :=
            (List.perm_append_comm_assoc _ _ _).append_left _
          List.Perm _ _ := by
            rw [answeredRequests_cons m.network.pending (order, w) turns, ← List.append_assoc]
            exact hdue.symm.append_right _
      · rw [hready₁, hready, List.map_append, List.map_append, firstTimers, List.map_map]
        simp only [Scheduler.State.wakeBefore, List.append_assoc]
        rfl

/-! ## 5. No number is missing or given out twice -/

/-- The two errors of a wrong number. -/
def Misnumbered (e : KernelError) : Prop :=
  e = .new "missing native network wait" ∨ e = .new "duplicate native network wait identity"

instance (e : KernelError) : Decidable (Misnumbered e) := inferInstanceAs (Decidable (_ ∨ _))

/-- A result that fails for no wrong number. -/
def Avoids {α : Type} (r : Except Failure α) : Prop :=
  ∀ e, r = .error (.kernel e) → ¬Misnumbered e

section Avoids

variable {α β : Type} {s : Scheduler.State T} {n : Network.State T}

theorem avoids_ok (a : α) : Avoids (.ok a : Except Failure α) := fun e h => by cases h

theorem avoids_error {text : String} (h : ¬Misnumbered (.new text)) :
    Avoids (.error (.kernel (.new text)) : Except Failure α) := by
  intro e he
  cases he
  exact h

theorem avoids_lift_error {text : String} (h : ¬Misnumbered (.new text)) :
    Avoids (lift (.error (.new text) : Except KernelError α)) := avoids_error h

/-- What follows a result of the first part. -/
theorem Avoids.bind {r : Except Failure α} {f : α → Except Failure β} (hr : Avoids r)
    (hf : ∀ a, r = .ok a → Avoids (f a)) : Avoids (r >>= f) := by
  cases r with
  | ok a => exact hf a rfl
  | error failure =>
    intro e he
    cases he
    exact hr e rfl

theorem avoids_reserveWait (s : Scheduler.State T) : Avoids (lift s.reserveWait) := by
  unfold Scheduler.State.reserveWait
  split
  · exact avoids_lift_error (by decide)
  · exact avoids_ok _

theorem avoids_resume (s : Scheduler.State T) (action : T) : Avoids (lift (s.resume action)) := by
  unfold Scheduler.State.resume
  split
  · exact avoids_lift_error (by decide)
  · exact avoids_ok _

theorem avoids_restore (n : Network.State T) (handle : Nat) (resource : Network.Resource) :
    Avoids (lift (n.restore handle resource)) := by
  unfold Network.State.restore
  split
  · exact avoids_lift_error (by decide)
  · split
    · exact avoids_lift_error (by decide)
    · exact avoids_ok _

theorem avoids_insert (n : Network.State T) (resource : Network.Resource) :
    Avoids (lift (n.insert resource)) := by
  unfold Network.State.insert
  split
  · exact avoids_lift_error (by decide)
  · have hrestore := avoids_restore { n with next := n.next + 1 } n.next resource
    cases hresult : ({ n with next := n.next + 1 } : Network.State T).restore n.next resource with
    | ok restored => exact avoids_ok _
    | error e =>
      rw [hresult] at hrestore
      intro e' he'
      cases he'
      exact hrestore e rfl

/-- A new number is parked. -/
theorem avoids_park {order : Nat} (hnew : order ∉ n.pending) (request : Network.Request T) :
    Avoids (lift (n.park order request)) := by
  unfold Network.State.park
  split
  · exact avoids_lift_error (by decide)
  · split
    · exact avoids_lift_error (by decide)
    · exact avoids_ok _

theorem avoids_takePending {order : Nat} (h : order ∈ n.pending) :
    Avoids (lift (n.takePending order)) := by
  unfold Network.State.takePending
  split
  · rename_i hlookup
    exact absurd h (AList.lookup_eq_none.mp hlookup)
  · exact avoids_ok _

theorem avoids_checkResource (operation : Network.Operation) (resource : Network.Resource) :
    Avoids (checkResource operation resource) := by
  unfold checkResource
  split
  · exact avoids_ok _
  · exact avoids_error (by decide)
  · exact avoids_ok _
  · exact avoids_error (by decide)

theorem avoids_advanceNetwork (hnew : m.scheduler.nextWait ∉ m.network.pending)
    (request : Network.Request T) : Avoids (advanceNetwork w m request) := by
  refine (avoids_checkResource _ _).bind fun _ _ => ?_
  split
  · refine Avoids.bind ?_ fun _ _ => avoids_ok _
    refine (avoids_reserveWait m.scheduler).bind fun reserved hreserve => ?_
    obtain ⟨horder, -, -⟩ := reserveWait_spec (lift_eq_ok hreserve)
    rw [← horder] at hnew
    exact (avoids_park hnew _).bind fun _ _ => avoids_ok _
  · split
    · split
      · exact (avoids_insert _ _).bind fun _ _ => avoids_ok _
      · exact avoids_ok _
    · refine Avoids.bind ?_ fun network _ => ?_
      · unfold acceptSocket
        split
        · exact (avoids_insert _ _).bind fun _ _ => avoids_ok _
        · exact avoids_ok _
      · split
        · exact avoids_error (by decide)
        · exact (avoids_restore _ _ _).bind fun _ _ => avoids_ok _

/-- A turn of the network finds its request. -/
theorem avoids_resumeNetwork {order : Nat} {orders : List Nat}
    (hm : Numbered m.scheduler m.network) (h : order ∈ m.network.pending) :
    Avoids (resumeNetwork w m now (order :: orders)) := by
  refine (avoids_takePending h).bind fun taken htake => ?_
  obtain ⟨-, -, -, -, -, hpending, -⟩ := Network.State.takePending_spec (lift_eq_ok htake)
  refine (avoids_advanceNetwork ?_ _).bind ?_
  · intro hmem
    simp only [hpending] at hmem
    exact Nat.lt_irrefl _ (hm.pending_lt _ (AList.mem_erase.mp hmem).2)
  · rintro ⟨isAnswered, next⟩ _
    cases isAnswered with
    | true => exact (avoids_resume _ _).bind fun _ _ => avoids_ok _
    | false => exact avoids_ok _

/-- **All turns of a round find their requests.** -/
theorem avoids_resumeAll {turns : List (Nat × World T)} (hm : Numbered m.scheduler m.network)
    (hsorted : (turns.map Prod.fst).Pairwise (· < ·))
    (hpending : ∀ turn ∈ turns, turn.1 ∈ m.network.pending) :
    Avoids (resumeAll now turns m) := by
  induction turns generalizing m with
  | nil => exact avoids_ok _
  | cons turn turns ih =>
    obtain ⟨order, w⟩ := turn
    refine (avoids_resumeNetwork hm (hpending _ List.mem_cons_self)).bind fun m₁ hresume => ?_
    obtain ⟨hm₁, hsorted₁, hpending₁⟩ := resumeNetwork_later hm hsorted hpending hresume
    exact ih hm₁ hsorted₁ hpending₁

end Avoids


/-! ## 6. Every run -/

/-- What was polled is ready in the order of the numbers, and still parked. -/
structure Polled (m : Machine T) : Prop where
  sorted : m.phase.polled.Pairwise (· < ·)
  pending : ∀ order ∈ m.phase.polled, order ∈ m.network.pending

theorem Polled.of_nil (h : m.phase.polled = []) : m.Polled := by
  constructor <;> simp [h]

theorem Polled.same (h : m.Polled) (hphase : m'.phase.polled = m.phase.polled)
    (hnetwork : m'.network = m.network) : m'.Polled := by
  constructor
  · rw [hphase]
    exact h.sorted
  · rw [hphase, hnetwork]
    exact h.pending

/-- A poll lists the ready requests in the order of their numbers. -/
theorem Polled.of_poll {n : Network.State T} {ready : Nat → Bool}
    (hphase : m.phase.polled = n.poll ready) (hnetwork : m.network = n) : m.Polled := by
  have hperm : (n.pending.keys.mergeSort (· ≤ ·)).Perm n.pending.keys := List.mergeSort_perm _ _
  have hsorted : (n.pending.keys.mergeSort (· ≤ ·)).Pairwise (· < ·) := by
    have hle : (n.pending.keys.mergeSort (· ≤ ·)).Pairwise fun a b => decide (a ≤ b) = true :=
      List.pairwise_mergeSort (by simpa using fun a b c => Nat.le_trans)
        (by simpa using fun a b => Nat.le_total a b) _
    have hne := hperm.nodup_iff.mpr n.pending.keys_nodup
    refine (hle.and hne).imp fun ⟨hab, hneq⟩ => ?_
    have hab := of_decide_eq_true hab
    omega
  constructor
  · rw [hphase]
    exact hsorted.sublist List.filter_sublist
  · intro order horder
    rw [hphase] at horder
    rw [hnetwork, AList.mem_keys, ← hperm.mem_iff]
    exact (List.mem_filter.mp horder).1

/-- Requests that were polled wait until their turn. -/
theorem Polled.step (h : m.Polled) (hm : Numbered m.scheduler m.network)
    (hstep : step w m = .ok m') : m'.Polled := by
  unfold Machine.step at hstep
  split at hstep
  · cases hstep
  · split at hstep
    · cases hstep
      exact .of_nil (turn_handles m).polled
    · rename_i hphase
      obtain ⟨-, hnetwork, hpolled⟩ := resumeHostJob_acts hphase hstep
      exact h.same hpolled hnetwork
    · exact .of_nil (runTask_handles hstep).polled
    · exact .of_nil (wakeNext_handles hstep).polled
    · rename_i polled hphase
      cases hstep
      cases polled with
      | some ready => exact h.same (by rw [hphase]; rfl) rfl
      | none =>
        unfold poll
        simp only
        split
        · exact .of_poll rfl rfl
        · exact .of_nil rfl
    · rename_i orders now hphase
      cases orders with
      | nil =>
        cases hstep
        obtain ⟨-, hnetwork, hpolled⟩ := wait_network w { m with scheduler := m.scheduler.wake now }
        rcases hpolled with hnone | hpoll
        · exact .of_nil hnone
        · exact .of_poll hpoll hnetwork
      | cons order orders =>
        have hsorted := h.sorted
        have hpending := h.pending
        rw [hphase] at hsorted hpending
        -- what the host will say in the later turns does not matter
        have hturns : (orders.map fun order => (order, w)).map Prod.fst = orders := by
          simp [Function.comp_def]
        rw [← hturns] at hstep
        have hphase' := (resumeNetwork_spec hm hstep).1
        obtain ⟨-, hsorted', hpending'⟩ := resumeNetwork_later hm
          (by rwa [List.map_cons, hturns]) (by simpa [Phase.polled] using hpending) hstep
        rw [hturns] at hphase' hsorted'
        constructor
        · rwa [hphase']
        · intro later hlater
          rw [hphase'] at hlater
          exact hpending' (later, w) (List.mem_map_of_mem hlater)
    · cases hstep
      exact h

/-- **In every state of a run** the numbers of the waits are apart, and what was polled is ready
in their order. -/
theorem Reached.polled {entry : T} (h : Reached entry m) :
    Numbered m.scheduler m.network ∧ m.Polled := by
  refine ⟨?_, ?_⟩
  · obtain ⟨closed, hdesk⟩ := h.desk
    exact hdesk.numbered
  · induction h with
    | start h =>
      obtain ⟨scheduler, -, h⟩ := lift_bind_eq_ok h
      cases h
      exact .of_nil rfl
    | step w hm h ih =>
      obtain ⟨closed, hdesk⟩ := hm.desk
      exact ih.step hdesk.numbered h

/-- **Mixed wake order.**  In every state of a run the numbers of the waits are apart and the
polled requests are parked, in the order of their numbers.  From there the loop of
`resume_network` appends the actions of the timers that are due and of the ready requests that
are answered, each once and in the order of their numbers.  The other timers stay as they were,
and so do the requests that were not ready; those that have to wait again follow in their order
under new numbers.  No turn fails for a number that is missing or given out twice. -/
theorem mixed_wake_order :
    (∀ (entry : T) (m : Machine T), Reached entry m →
      Numbered m.scheduler m.network ∧ m.phase.polled.Pairwise (· < ·) ∧
        ∀ order ∈ m.phase.polled, order ∈ m.network.pending) ∧
    ∀ (m : Machine T) (turns : List (Nat × World T)) (now : Nat),
      Numbered m.scheduler m.network → (turns.map Prod.fst).Pairwise (· < ·) →
      (∀ turn ∈ turns, turn.1 ∈ m.network.pending) →
      (∀ m', resumeAll now turns m = .ok m' →
        (∃ woken : List (Nat × T), woken.Pairwise (·.1 < ·.1) ∧
          woken.Perm (dueTimers now m.scheduler.timers ++
            answeredRequests m.network.pending turns) ∧
          m'.scheduler.ready = m.scheduler.ready ++ woken.map Prod.snd) ∧
        m'.scheduler.timers =
          m.scheduler.timers.filter (fun timer => decide (now < timer.deadline)) ∧
        (∀ order < m.scheduler.nextWait, m'.network.pending.lookup order =
          if order ∈ turns.map Prod.fst then none else m.network.pending.lookup order) ∧
        (∀ i, m'.network.pending.lookup (m.scheduler.nextWait + i) =
          (waitingRequests m.network.pending turns)[i]?) ∧
        m'.scheduler.nextWait = m.scheduler.nextWait +
          (waitingRequests m.network.pending turns).length) ∧
      ∀ e, resumeAll now turns m = .error (.kernel e) →
        e ≠ .new "missing native network wait" ∧
        e ≠ .new "duplicate native network wait identity" := by
  refine ⟨fun entry m h => ?_, fun m turns now hm hsorted hpending => ⟨fun m' h => ?_, ?_⟩⟩
  · obtain ⟨hnumbered, hsorted, hpending⟩ := h.polled
    exact ⟨hnumbered, hsorted, hpending⟩
  · obtain ⟨hparks, htimers, hwoken⟩ := resumed_spec hm hsorted hpending h
    exact ⟨hwoken, htimers, hparks.old, hparks.new, hparks.nextWait⟩
  · intro e he
    exact not_or.mp (avoids_resumeAll hm hsorted hpending e he)

/-- Three timers and two requests for at most 8 bytes. -/
def mixedWait : Machine Nat where
  scheduler := ⟨[], [⟨0, 5, 10⟩, ⟨2, 1, 12⟩, ⟨4, 9, 14⟩], 5, 5⟩
  channels := .default
  jobs := .default
  network := ⟨∅, (AList.singleton 1 ⟨.Socket, some 0, 11, .Recv 8⟩).insert 3
    ⟨.Socket, some 1, 13, .Recv 8⟩, 2, 16⟩
  turns := 0
  phase := .network [1, 3] 5

/-- The first request is answered and the second has to wait again. -/
def mixedTurns : List (Nat × World Nat) :=
  [(1, { plainWorld .Emit with allocated := 11 }), (3, { plainWorld .Emit with waits := some 0 })]

theorem numbered_mixedWait : Numbered mixedWait.scheduler mixedWait.network where
  sorted := by decide
  timer_lt := by decide
  pending_lt order horder := by
    have hkeys : order ∈ [3, 1] := AList.mem_keys.mp horder
    have hall : ∀ order ∈ [3, 1], order < mixedWait.scheduler.nextWait := by decide
    exact hall order hkeys
  apart := by decide
  limit := by decide

/-- The two timers that are due wake around the request, and the second request gets number 5. -/
theorem mixed_wake_order_three : ∃ m', resumeAll 5 mixedTurns mixedWait = .ok m' ∧
    m'.scheduler.ready = [10, 11, 12] ∧
    m'.network.pending.lookup 5 = some ⟨.Socket, some 1, 13, .Recv 8⟩ :=
  ⟨_, rfl, rfl, ((mixed_wake_order.2 mixedWait mixedTurns 5 numbered_mixedWait (by decide)
    (by decide)).1 _ rfl).2.2.2.1 0⟩

end Machine

end TeamyBend.Runtime.Driver
