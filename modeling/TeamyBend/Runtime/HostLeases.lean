/-
# The leases of the host jobs

A lease is with a machine that submits, in the queue, with a worker, in a channel, with a
completion or on its way to be dropped.  `Pool.entries` is the ledger of all of them, with the
reservations and drops that are between the two counters.  `Moves` says what an act does to the
ledger, to the budget and to the history of the runs; every act of the pool is one (`Step.moves`).

Hence the counters of the budget are those of the ledger (`Budgeted`).  The places of the workers
are a matter of the queue alone (`Staffed`): the condition under which a worker is started keeps
a worker for every job until there are 64.
-/
import TeamyBend.Runtime.HostPool

namespace TeamyBend.Runtime.HostPool

open HostJobs (Pending)
open Library (Trade)

variable {T K R : Type}

/-! ## 1. Entries -/

/-- What is on the ledger of the pool. -/
inductive Entry (K R : Type) where
  /-- A reservation or a drop between the two counters. -/
  | half
  /-- A lease whose job is not in the queue yet. -/
  | held (bytes : Nat)
  /-- A job that was not run. -/
  | waiting (job : Job K)
  /-- A job that was run and whose answer the machine has not read. -/
  | answered (job : Job K) (reply : Option R)
  /-- A lease whose job is over. -/
  | spent (bytes : Nat)

namespace Entry

/-- The bytes of the lease. -/
def bytes : Entry K R → Nat
  | half => 0
  | held bytes | spent bytes => bytes
  | waiting job | answered job _ => job.bytes

/-- The job that the machine still waits for. -/
def job : Entry K R → Option (Job K)
  | waiting job | answered job _ => some job
  | _ => none

/-- The job is over. -/
def toOver (entry : Entry K R) : Entry K R := .spent entry.bytes

end Entry

def Worker.entries : Worker K R → List (Entry K R)
  | picked job | running job => [.waiting job]
  | ran job reply | sending job reply => [.answered job reply]
  | leaving => []

def Submission.entries : Submission T K → List (Entry K R)
  | idle | failed => []
  | reserving _ => [.half]
  | leased request => [.held request.bytes]

def Portal.entries (portal : Portal T K R) : List (Entry K R) :=
  portal.submission.entries ++
    portal.channel.map (fun finished => .answered finished.job finished.reply) ++
    portal.ready.map (fun finished => .answered finished.job finished.reply) ++
    portal.packing.map (fun completion => .spent completion.job.bytes)

/-- The ledger of the pool. -/
def Pool.entries (s : Pool T K R) : List (Entry K R) :=
  s.queue.jobs.map .waiting ++ s.threads.flatMap Worker.entries ++
    s.portals.flatMap Portal.entries ++ s.dropping.map .spent ++ List.replicate s.releasing .half

/-- The jobs of a portal and what it was told stay, and it does not come back to life. -/
structure Portal.Same (portal portal' : Portal T K R) : Prop where
  jobs : portal'.jobs = portal.jobs
  accepted : portal'.accepted = portal.accepted
  completed : portal'.completed = portal.completed
  life : portal'.life = .alive → portal.life = .alive

/-- Portals are opened, and those that were open stay the same. -/
structure Quiet (s s' : Pool T K R) : Prop where
  length : s.portals.length ≤ s'.portals.length
  portal : ∀ (p : Nat) (portal' : Portal T K R), s'.portals[p]? = some portal' →
    s.portals[p]? = none ∧ portal' = .default ∨
      ∃ portal, s.portals[p]? = some portal ∧ portal.Same portal'

/-- The portal of the job of an entry is not alive. -/
def Pool.Dead (s : Pool T K R) (job : Job K) : Prop :=
  ∃ portal, s.portals[job.portal]? = some portal ∧ portal.life ≠ .alive

/-- What an act does to the ledger, to the budget, to the runs and to the portals. -/
inductive Moves (s s' : Pool T K R) : Prop where
  | same (h : Trade s.entries [] [] s'.entries) (hbudget : s'.budget = s.budget)
      (hruns : s'.runs = s.runs) (hquiet : Quiet s s')
  | reserveJob (h : Trade s.entries [] [.half] s'.entries)
      (hbudget : s.budget.reserveJob = .ok s'.budget) (hruns : s'.runs = s.runs)
      (hquiet : Quiet s s')
  | reserveBytes {bytes : Nat} (h : Trade s.entries [.half] [.held bytes] s'.entries)
      (hbudget : s.budget.reserveBytes bytes = .ok s'.budget) (hruns : s'.runs = s.runs)
      (hquiet : Quiet s s')
  | submit {p : Nat} {portal : Portal T K R} {request : Request T K} {jobs : HostJobs.State T}
      (h : Trade s.entries [.held request.bytes]
        [.waiting ⟨p, portal.jobs.next, request.bytes, request.task⟩] s'.entries)
      (hbudget : s'.budget = s.budget) (hruns : s'.runs = s.runs)
      (hportal : s.portals[p]? = some portal)
      (hjobs : portal.jobs.submit request.continuation request.handle = .ok jobs)
      (hset : s'.portals = s.portals.set p
        { portal with jobs, submission := .idle, accepted := portal.accepted ++ [request] })
  | run {job : Job K} {reply : Option R}
      (h : Trade s.entries [.waiting job] [.answered job reply] s'.entries)
      (hbudget : s'.budget = s.budget) (hruns : s'.runs = s.runs ++ [(job, reply)])
      (hquiet : Quiet s s')
  | drop (gone : List (Entry K R)) (hleases : .half ∉ gone)
      (hdead : ∀ entry ∈ gone, ∀ job, entry.job = some job → s.Dead job)
      (h : Trade s.entries gone (gone.map Entry.toOver) s'.entries)
      (hbudget : s'.budget = s.budget) (hruns : s'.runs = s.runs) (hquiet : Quiet s s')
  | complete {p : Nat} {portal rest : Portal T K R} {finished : Finished K R}
      {pending : Pending T} {jobs : HostJobs.State T}
      (h : Trade s.entries [.answered finished.job finished.reply] [.spent finished.job.bytes]
        s'.entries)
      (hbudget : s'.budget = s.budget) (hruns : s'.runs = s.runs)
      (hportal : s.portals[p]? = some portal) (hfree : portal.Free)
      (hnext : portal.next = some (finished, rest))
      (hjobs : portal.jobs.completed (some finished.job.id) = .ok (some (pending, jobs)))
      (hset : s'.portals = s.portals.set p { rest with
        jobs
        packing := rest.packing ++ [⟨pending, finished.job, finished.reply⟩]
        completed := rest.completed ++ [⟨pending, finished.job, finished.reply⟩] })
  | unexpected {p : Nat} {portal rest : Portal T K R} {finished : Finished K R} {e : KernelError}
      (h : Trade s.entries [.answered finished.job finished.reply] [.spent finished.job.bytes]
        s'.entries)
      (hbudget : s'.budget = s.budget) (hruns : s'.runs = s.runs)
      (hportal : s.portals[p]? = some portal) (hfree : portal.Free)
      (hnext : portal.next = some (finished, rest))
      (hjobs : portal.jobs.completed (some finished.job.id) = .error e)
  | releaseBytes {bytes : Nat} (h : Trade s.entries [.spent bytes] [.half] s'.entries)
      (hbudget : s'.budget = s.budget.releaseBytes bytes) (hruns : s'.runs = s.runs)
      (hquiet : Quiet s s')
  | releaseJob (h : Trade s.entries [.half] [] s'.entries)
      (hbudget : s'.budget = s.budget.releaseJob) (hruns : s'.runs = s.runs)
      (hquiet : Quiet s s')

/-! ## 2. Holders of entries -/

section Weights

variable (weight : Entry K R → Nat)

/-- The weight of the ledger, holder by holder. -/
theorem sum_entries (s : Pool T K R) : (s.entries.map weight).sum =
    ((s.queue.jobs.map .waiting).map weight).sum +
      ((s.threads.flatMap Worker.entries).map weight).sum +
      ((s.portals.flatMap Portal.entries).map weight).sum +
      ((s.dropping.map .spent).map weight).sum + s.releasing * weight .half := by
  simp only [Pool.entries, List.map_append, List.sum_append, List.map_replicate,
    List.sum_replicate_nat]

theorem sum_portal (portal : Portal T K R) : (portal.entries.map weight).sum =
    (portal.submission.entries.map weight).sum +
      ((portal.channel.map fun finished => Entry.answered finished.job finished.reply).map
        weight).sum +
      ((portal.ready.map fun finished => Entry.answered finished.job finished.reply).map
        weight).sum +
      ((portal.packing.map fun completion => Entry.spent completion.job.bytes).map weight).sum := by
  simp only [Portal.entries, List.map_append, List.sum_append]

end Weights

section Holders

variable {s : Pool T K R}

theorem trade_setPortal {p : Nat} {portal : Portal T K R} (h : s.portals[p]? = some portal)
    (portal' : Portal T K R) :
    Trade s.entries portal.entries portal'.entries (s.setPortal p portal').entries := by
  refine .of_sums fun weight => ?_
  have hset := Library.sum_flatMap_set Portal.entries weight h portal'
  simp only [sum_entries, Pool.setPortal]
  omega

theorem trade_setThread {i : Nat} {worker : Worker K R} (h : s.threads[i]? = some worker)
    (worker' : Worker K R) :
    Trade s.entries worker.entries worker'.entries (s.setThread i worker').entries := by
  refine .of_sums fun weight => ?_
  have hset := Library.sum_flatMap_set Worker.entries weight h worker'
  simp only [sum_entries, Pool.setThread]
  omega

theorem trade_drop (s : Pool T K R) (leases : List Nat) :
    Trade s.entries [] (leases.map .spent) (s.drop leases).entries := by
  refine .of_sums fun weight => ?_
  simp only [sum_entries, Pool.drop, List.map_append, List.sum_append, List.map_nil, List.sum_nil]
  omega

/-- Only the submission of a portal changes. -/
theorem trade_submission {p : Nat} {portal : Portal T K R} (h : s.portals[p]? = some portal)
    (portal' : Portal T K R) (hchannel : portal'.channel = portal.channel)
    (hready : portal'.ready = portal.ready) (hpacking : portal'.packing = portal.packing) :
    Trade s.entries portal.submission.entries portal'.submission.entries
      (s.setPortal p portal').entries := by
  refine .of_sums fun weight => ?_
  have hset := (trade_setPortal h portal').sum weight
  simp only [sum_portal, hchannel, hready, hpacking] at hset
  omega

theorem submit_portals (s : Pool T K R) (job : Job K) : (s.submit job).portals = s.portals := by
  unfold Pool.submit Pool.push Pool.notifyOne
  split <;> split <;> rfl

theorem submit_setPortal (s : Pool T K R) (job : Job K) (p : Nat) (portal : Portal T K R) :
    ((s.submit job).setPortal p portal).portals = s.portals.set p portal := by
  rw [Pool.setPortal, submit_portals]

theorem submit_budget (s : Pool T K R) (job : Job K) :
    (s.submit job).budget = s.budget ∧ (s.submit job).runs = s.runs := by
  unfold Pool.submit Pool.push Pool.notifyOne
  split <;> split <;> exact ⟨rfl, rfl⟩

theorem trade_samePortal {p : Nat} {portal : Portal T K R} (h : s.portals[p]? = some portal)
    (portal' : Portal T K R) (hsame : (portal'.entries : List (Entry K R)) = portal.entries) :
    Trade s.entries [] [] (s.setPortal p portal').entries := by
  refine .of_sums fun weight => ?_
  have hset := (trade_setPortal h portal').sum weight
  rw [hsame] at hset
  simp only [List.map_nil, List.sum_nil]
  omega

/-- The jobs of a portal leave the queue. -/
theorem trade_purge (s : Pool T K R) (p : Nat) :
    Trade s.entries ((s.queue.jobsOf p).map .waiting)
      (((s.queue.jobsOf p).map .waiting).map Entry.toOver)
      ({ s with queue := s.queue.cancel p }.drop ((s.queue.jobsOf p).map Job.bytes)).entries := by
  refine .of_sums fun weight => ?_
  have hfilter := Library.sum_map_filter (fun job : Job K => job.portal == p)
    (weight ∘ Entry.waiting) s.queue.jobs
  simp only [sum_entries, Pool.drop, Queue.cancel, Queue.jobsOf, List.map_append, List.map_map,
    List.sum_append, Function.comp_def, Entry.toOver, Entry.bytes] at hfilter ⊢
  omega

/-- A job enters the queue. -/
theorem trade_submit (s : Pool T K R) (job : Job K) :
    Trade s.entries [] [.waiting job] (s.submit job).entries := by
  refine .of_sums fun weight => ?_
  unfold Pool.submit Pool.push Pool.notifyOne
  split <;> split <;>
    simp only [sum_entries, Pool.startWorker, List.map_append, List.sum_append, List.map_cons,
      List.map_nil, List.sum_cons, List.sum_nil] <;> omega

/-- A portal that reads its next answer gives it away. -/
theorem trade_next {portal rest : Portal T K R} {finished : Finished K R}
    (h : portal.next = some (finished, rest)) :
    Trade portal.entries [.answered finished.job finished.reply] [] rest.entries := by
  refine .of_sums fun weight => ?_
  unfold Portal.next at h
  split at h
  · rename_i hready
    cases h
    simp only [sum_portal, hready, List.map_cons, List.map_nil, List.sum_cons, List.sum_nil]
    omega
  · split at h
    · rename_i hchannel
      cases h
      simp only [sum_portal, hchannel, List.map_cons, List.map_nil, List.sum_cons, List.sum_nil]
      omega
    · cases h

theorem next_same {portal rest : Portal T K R} {finished : Finished K R}
    (h : portal.next = some (finished, rest)) : rest.submission = portal.submission := by
  unfold Portal.next at h
  split at h
  · cases h
    rfl
  · split at h
    · cases h
      rfl
    · cases h

/-- The lease of a worker's job is dropped. -/
theorem trade_discard {i : Nat} {worker : Worker K R} (h : s.threads[i]? = some worker)
    (bytes : Nat) :
    Trade s.entries worker.entries [.spent bytes]
      ((s.setThread i .leaving).drop [bytes]).entries := by
  have htrade := (trade_setThread h .leaving).trans (trade_drop (s.setThread i .leaving) [bytes])
  rwa [List.append_nil] at htrade

/-- A portal is opened, with nothing on it. -/
theorem trade_openPortal (s : Pool T K R) :
    Trade s.entries [] [] ({ s with portals := s.portals ++ [.default] } : Pool T K R).entries := by
  refine .of_sums fun weight => ?_
  simp only [sum_entries, List.flatMap_append, List.map_append, List.sum_append]
  rfl

/-- A half of a reservation is about to be released. -/
theorem trade_rollBack {p : Nat} {portal : Portal T K R} {request : Request T K}
    (hportal : s.portals[p]? = some portal) (hsubmission : portal.submission = .reserving request) :
    Trade s.entries [] [] ({ s with releasing := s.releasing + 1 }.setPortal p
      { portal with submission := .failed }).entries := by
  have htrade := trade_submission (s := { s with releasing := s.releasing + 1 }) hportal
    { portal with submission := .failed } rfl rfl rfl
  rw [hsubmission] at htrade
  refine .of_sums fun weight => ?_
  have hsum := htrade.sum weight
  rw [sum_entries weight { s with releasing := s.releasing + 1 }, Nat.succ_mul] at hsum
  rw [sum_entries weight s]
  simp only [Submission.entries, List.map_cons, List.map_nil, List.sum_cons, List.sum_nil] at *
  omega

theorem trade_releaseBytes {i bytes : Nat} (h : s.dropping[i]? = some bytes) (budget : Budget) :
    Trade s.entries [.spent bytes] [.half] ({ s with
      budget
      dropping := s.dropping.eraseIdx i
      releasing := s.releasing + 1 } : Pool T K R).entries := by
  refine .of_sums fun weight => ?_
  have herase := Library.sum_map_eraseIdx h (weight ∘ Entry.spent)
  simp only [sum_entries, List.map_map, Nat.succ_mul, List.map_cons, List.map_nil,
    List.sum_cons, List.sum_nil, Function.comp_apply] at herase ⊢
  omega

theorem trade_releaseJob {releasing : Nat} (h : s.releasing = releasing + 1) (budget : Budget) :
    Trade s.entries [.half] [] ({ s with budget, releasing } : Pool T K R).entries := by
  refine .of_sums fun weight => ?_
  simp only [sum_entries, h, Nat.succ_mul, List.map_cons, List.map_nil, List.sum_cons,
    List.sum_nil]
  omega

/-- A worker takes a job from the queue. -/
theorem trade_pickUp {job : Job K} {jobs : List (Job K)} (h : s.queue.jobs = job :: jobs)
    (busy checking : Nat) :
    Trade s.entries [] [] ({ s with
      queue := { s.queue with jobs, busy }
      checking
      threads := s.threads ++ [.picked job] } : Pool T K R).entries := by
  refine .of_sums fun weight => ?_
  simp only [sum_entries, h, List.flatMap_append, List.flatMap_cons, List.flatMap_nil,
    Worker.entries, List.map_append, List.sum_append, List.map_cons, List.map_nil, List.sum_cons,
    List.sum_nil]
  omega

/-- An answer goes from a worker into the channel of its portal. -/
theorem trade_send {i : Nat} {job : Job K} {reply : Option R} {portal : Portal T K R}
    (hthread : s.threads[i]? = some (.sending job reply))
    (hportal : s.portals[job.portal]? = some portal) :
    Trade s.entries [] [] ((s.setThread i .leaving).setPortal job.portal
      { portal with channel := portal.channel ++ [⟨job, reply⟩] }).entries := by
  have hset := trade_setPortal (s := s.setThread i .leaving) hportal
    { portal with channel := portal.channel ++ [⟨job, reply⟩] }
  refine .of_sums fun weight => ?_
  have hleave := (trade_setThread hthread .leaving).sum weight
  have hsum := hset.sum weight
  simp only [sum_portal, Worker.entries, List.map_append, List.sum_append, List.map_cons,
    List.map_nil, List.sum_cons, List.sum_nil] at hleave hsum ⊢
  omega

theorem trade_leave {i : Nat} (h : s.threads[i]? = some .leaving) (busy checking : Nat) :
    Trade s.entries [] [] ({ s with
      queue := { s.queue with busy }
      checking
      threads := s.threads.eraseIdx i } : Pool T K R).entries := by
  refine .of_sums fun weight => ?_
  have herase := Library.sum_flatMap_eraseIdx Worker.entries weight h
  simp only [Worker.entries, List.map_nil, List.sum_nil] at herase
  simp only [sum_entries, List.map_nil, List.sum_nil]
  omega

/-- An answer goes from the channel to those that are ready. -/
theorem trade_wait {p : Nat} {portal : Portal T K R} {finished : Finished K R}
    {channel : List (Finished K R)} (hportal : s.portals[p]? = some portal)
    (hready : portal.ready = []) (hchannel : portal.channel = finished :: channel) :
    Trade s.entries [] [] (s.setPortal p { portal with channel, ready := [finished] }).entries := by
  refine .of_sums fun weight => ?_
  have hset := (trade_setPortal hportal { portal with channel, ready := [finished] }).sum weight
  simp only [sum_portal, hready, hchannel, List.map_cons, List.map_nil, List.sum_cons,
    List.sum_nil] at hset ⊢
  omega

/-- An answer that is read becomes a completion. -/
theorem trade_complete {p : Nat} {portal rest : Portal T K R} {finished : Finished K R}
    (hportal : s.portals[p]? = some portal) (hnext : portal.next = some (finished, rest))
    (pending : Pending T) (jobs : HostJobs.State T) :
    Trade s.entries [.answered finished.job finished.reply] [.spent finished.job.bytes]
      (s.setPortal p { rest with
        jobs
        packing := rest.packing ++ [⟨pending, finished.job, finished.reply⟩]
        completed := rest.completed ++ [⟨pending, finished.job, finished.reply⟩] }).entries := by
  refine .of_sums fun weight => ?_
  have hset := (trade_setPortal hportal { rest with
    jobs
    packing := rest.packing ++ [⟨pending, finished.job, finished.reply⟩]
    completed := rest.completed ++ [⟨pending, finished.job, finished.reply⟩] }).sum weight
  have hread := (trade_next hnext).sum weight
  simp only [sum_portal, List.map_append, List.sum_append, List.map_cons,
    List.map_nil, List.sum_cons, List.sum_nil] at hset hread ⊢
  omega

/-- An answer that is read and not expected is dropped. -/
theorem trade_unexpected {p : Nat} {portal rest : Portal T K R} {finished : Finished K R}
    (hportal : s.portals[p]? = some portal) (hfree : portal.Free)
    (hnext : portal.next = some (finished, rest)) :
    Trade s.entries [.answered finished.job finished.reply] [.spent finished.job.bytes]
      ((s.drop [finished.job.bytes]).setPortal p { rest with submission := .failed }).entries := by
  refine .of_sums fun weight => ?_
  have hset := (trade_setPortal (s := s.drop [finished.job.bytes]) hportal
    { rest with submission := .failed }).sum weight
  have hdrop := (trade_drop s [finished.job.bytes]).sum weight
  have hread := (trade_next hnext).sum weight
  have hidle : rest.submission = .idle := (next_same hnext).trans hfree.2
  simp only [sum_portal, hidle, Submission.entries, List.map_cons, List.map_nil,
    List.sum_cons, List.sum_nil] at hset hdrop hread ⊢
  omega

/-- The machine drops a completion. -/
theorem trade_packed {p i : Nat} {portal : Portal T K R} {completion : Completion T K R}
    (hportal : s.portals[p]? = some portal) (hpacking : portal.packing[i]? = some completion) :
    Trade s.entries [] [] ((s.drop [completion.job.bytes]).setPortal p
      { portal with packing := portal.packing.eraseIdx i }).entries := by
  refine .of_sums fun weight => ?_
  have hset := (trade_setPortal (s := s.drop [completion.job.bytes]) hportal
    { portal with packing := portal.packing.eraseIdx i }).sum weight
  have hdrop := (trade_drop s [completion.job.bytes]).sum weight
  have herase := Library.sum_map_eraseIdx hpacking
    (weight ∘ fun completion => Entry.spent completion.job.bytes)
  simp only [sum_portal, List.map_map, List.map_cons, List.map_nil, List.sum_cons, List.sum_nil,
    Function.comp_apply] at hset hdrop herase ⊢
  omega

/-- The answers of a portal are dropped with it. -/
theorem trade_close {p : Nat} {portal : Portal T K R} (hportal : s.portals[p]? = some portal) :
    Trade s.entries
      ((portal.channel ++ portal.ready).map fun finished => .answered finished.job finished.reply)
      (((portal.channel ++ portal.ready).map fun finished =>
        .answered finished.job finished.reply).map Entry.toOver)
      ((s.drop ((portal.channel ++ portal.ready).map fun finished =>
        finished.job.bytes)).setPortal p
          { portal with life := .closed, channel := [], ready := [] }).entries := by
  refine .of_sums fun weight => ?_
  have hset := (trade_setPortal (s := s.drop ((portal.channel ++ portal.ready).map
    fun finished => finished.job.bytes)) hportal
    { portal with life := .closed, channel := [], ready := [] }).sum weight
  have hdrop := (trade_drop s ((portal.channel ++ portal.ready).map
    fun finished => finished.job.bytes)).sum weight
  simp only [sum_portal, List.map_append, List.map_map, List.sum_append, List.map_nil,
    List.sum_nil, Function.comp_def, Entry.toOver, Entry.bytes] at hset hdrop ⊢
  omega

end Holders

section Quiet

variable {s s' : Pool T K R}

theorem Portal.Same.refl (portal : Portal T K R) : portal.Same portal := ⟨rfl, rfl, rfl, id⟩

theorem Quiet.same (h : s'.portals = s.portals) : Quiet s s' where
  length := by rw [h]
  portal p portal' hportal := by
    rw [h] at hportal
    exact .inr ⟨portal', hportal, .refl _⟩

theorem Quiet.opened (h : s'.portals = s.portals ++ [.default]) : Quiet s s' where
  length := by
    rw [h, List.length_append]
    omega
  portal p portal' hportal := by
    rw [h] at hportal
    rcases Nat.lt_or_ge p s.portals.length with hlt | hge
    · rw [List.getElem?_append_left hlt] at hportal
      exact .inr ⟨portal', hportal, .refl _⟩
    · rw [List.getElem?_append_right hge] at hportal
      refine .inl ⟨List.getElem?_eq_none hge, ?_⟩
      obtain ⟨_, hget⟩ := List.getElem?_eq_some_iff.mp hportal
      rw [← hget, List.getElem_singleton]

/-- A portal that keeps its answers is quiet. -/
theorem Quiet.set {p : Nat} {portal portal' : Portal T K R}
    (hportal : s.portals[p]? = some portal) (h : s'.portals = s.portals.set p portal')
    (hsame : portal.Same portal') : Quiet s s' where
  length := by rw [h, List.length_set]
  portal q portal'' hq := by
    obtain ⟨hlt, -⟩ := List.getElem?_eq_some_iff.mp hportal
    rw [h] at hq
    by_cases heq : p = q
    · subst heq
      rw [List.getElem?_set_self hlt] at hq
      cases hq
      exact .inr ⟨portal, hportal, hsame⟩
    · rw [List.getElem?_set_ne heq] at hq
      exact .inr ⟨portal'', hq, .refl _⟩

end Quiet

/-! ## 3. Answers go to the portal of the job -/

/-- What a portal has to read answers its own jobs. -/
def Portal.Routed (p : Nat) (portal : Portal T K R) : Prop :=
  ∀ finished ∈ portal.channel ++ portal.ready, finished.job.portal = p

def Pool.Routed (s : Pool T K R) : Prop :=
  ∀ (p : Nat) (portal : Portal T K R), s.portals[p]? = some portal → portal.Routed p

section Routed

variable {s s' : Pool T K R}

theorem Pool.Routed.set (h : s.Routed) {p : Nat} {portal portal' : Portal T K R}
    (hportal : s.portals[p]? = some portal) (hset : s'.portals = s.portals.set p portal')
    (hrouted : portal'.Routed p) : s'.Routed := by
  intro q other hother
  obtain ⟨hlt, -⟩ := List.getElem?_eq_some_iff.mp hportal
  rw [hset] at hother
  by_cases heq : p = q
  · subst heq
    rw [List.getElem?_set_self hlt] at hother
    cases hother
    exact hrouted
  · rw [List.getElem?_set_ne heq] at hother
    exact h q other hother

/-- The next result is of a job of its portal. -/
theorem next_routed {p : Nat} {portal rest : Portal T K R} {finished : Finished K R}
    (h : portal.next = some (finished, rest)) (hrouted : portal.Routed p) :
    finished.job.portal = p ∧ rest.Routed p := by
  unfold Portal.next at h
  split at h
  · rename_i hready
    cases h
    refine ⟨hrouted _ (by simp [hready]), fun other hother => hrouted other ?_⟩
    rcases List.mem_append.mp hother with hchannel | hrest
    · exact List.mem_append_left _ hchannel
    · rw [hready]
      exact List.mem_append_right _ (List.mem_cons_of_mem _ hrest)
  · split at h
    · rename_i hready _ hchannel
      cases h
      refine ⟨hrouted _ (by simp [hchannel]), fun other hother => hrouted other ?_⟩
      rcases List.mem_append.mp hother with hrest | hready
      · rw [hchannel]
        exact List.mem_append_left _ (List.mem_cons_of_mem _ hrest)
      · exact List.mem_append_right _ hready
    · cases h

/-- Every step keeps the answers at the portal of their job. -/
theorem Pool.Routed.step (h : s.Routed) (hstep : Step s s') : s'.Routed := by
  cases hstep with
  | openPortal =>
    intro p portal hportal
    rcases Nat.lt_or_ge p s.portals.length with hlt | hge
    · rw [List.getElem?_append_left hlt] at hportal
      exact h p portal hportal
    · rw [List.getElem?_append_right hge] at hportal
      obtain ⟨_, hget⟩ := List.getElem?_eq_some_iff.mp hportal
      rw [List.getElem_singleton] at hget
      subst hget
      exact fun finished hmem => by cases hmem
  | releaseBytes | releaseJob | sleep | wakeUp | pickUp | start | skip | run | keep | discard
  | cannotSend | leave => exact h
  | reserveJob hportal | refuse hportal | reserveBytes hportal | rollBack hportal
  | cannotStart hportal | packed hportal | cancel hportal | purge hportal =>
    have hold := h _ _ hportal
    exact h.set hportal rfl hold
  | submit hportal =>
    have hold := h _ _ hportal
    exact h.set hportal (submit_setPortal s _ _ _) hold
  | @send i job reply portal hthread hportal hlife =>
    refine h.set hportal rfl fun finished hmem => ?_
    simp only [List.append_assoc, List.mem_append, List.mem_singleton] at hmem
    rcases hmem with hchannel | rfl | hready
    · exact h _ _ hportal finished (List.mem_append_left _ hchannel)
    · rfl
    · exact h _ _ hportal finished (List.mem_append_right _ hready)
  | @wait p portal finished channel hportal hfree hready hchannel =>
    refine h.set hportal rfl fun other hmem => h p portal hportal other ?_
    rw [hchannel, hready]
    simp only [List.mem_append, List.mem_singleton] at hmem
    simpa [or_comm] using hmem
  | complete hportal hfree hnext hjobs =>
    exact h.set hportal rfl (next_routed hnext (h _ _ hportal)).2
  | unexpected hportal hfree hnext hjobs =>
    exact h.set hportal rfl (next_routed hnext (h _ _ hportal)).2
  | close hportal hlife => exact h.set hportal rfl fun finished hmem => by cases hmem

theorem Reached.routed (h : Reached s) : s.Routed := by
  induction h with
  | default => exact fun p portal hportal => by cases hportal
  | step _ h ih => exact ih.step h

end Routed

/-! ## 4. Every act moves entries -/

/-- The job of a worker is that of a portal that is not alive. -/
theorem dead_single {s : Pool T K R} {entry : Entry K R} {job : Job K} {portal : Portal T K R}
    (hjob : entry.job = some job) (hportal : s.portals[job.portal]? = some portal)
    (hlife : portal.life ≠ .alive) :
    ∀ other ∈ [entry], ∀ job, other.job = some job → s.Dead job := by
  intro other hother job' hjob'
  rw [List.mem_singleton.mp hother, hjob] at hjob'
  cases hjob'
  exact ⟨portal, hportal, hlife⟩

/-- The jobs of a portal that is purged are its own. -/
theorem dead_purged {s : Pool T K R} {p : Nat} {portal : Portal T K R}
    (hportal : s.portals[p]? = some portal) (hlife : portal.life = .cancelled) :
    ∀ entry ∈ (s.queue.jobsOf p).map (.waiting : Job K → Entry K R), ∀ job,
      entry.job = some job → s.Dead job := by
  intro entry hentry job hjob
  obtain ⟨job', hmem, rfl⟩ := List.mem_map.mp hentry
  cases hjob
  have hown : job.portal = p := by simpa using (List.mem_filter.mp hmem).2
  exact ⟨portal, by rw [hown]; exact hportal, by rw [hlife]; decide⟩

/-- So are those whose answers are dropped with it. -/
theorem dead_closed {s : Pool T K R} (hrouted : s.Routed) {p : Nat} {portal : Portal T K R}
    (hportal : s.portals[p]? = some portal) (hlife : portal.life = .purged) :
    ∀ entry ∈ (portal.channel ++ portal.ready).map
        (fun finished => (.answered finished.job finished.reply : Entry K R)), ∀ job,
      entry.job = some job → s.Dead job := by
  intro entry hentry job hjob
  obtain ⟨finished, hmem, rfl⟩ := List.mem_map.mp hentry
  cases hjob
  refine ⟨portal, ?_, by rw [hlife]; decide⟩
  rw [hrouted p portal hportal finished hmem]
  exact hportal

/-- **Every act of the pool moves entries of the ledger.** -/
theorem Step.moves {s s' : Pool T K R} (h : Step s s') (hrouted : s.Routed) : Moves s s' := by
  cases h with
  | openPortal => exact .same (trade_openPortal s) rfl rfl (.opened rfl)
  | @reserveJob p portal request jobs budget hportal hfree hjobs hbudget =>
    have htrade := trade_submission (s := { s with budget }) hportal
      { portal with submission := .reserving request } rfl rfl rfl
    rw [hfree.2] at htrade
    exact .reserveJob htrade hbudget rfl (.set hportal rfl ⟨rfl, rfl, rfl, id⟩)
  | @refuse p portal request e hportal hfree herror =>
    have htrade := trade_submission hportal { portal with submission := .failed } rfl rfl rfl
    rw [hfree.2] at htrade
    exact .same htrade rfl rfl (.set hportal rfl ⟨rfl, rfl, rfl, id⟩)
  | @reserveBytes p portal request budget hportal hsubmission hbudget =>
    have htrade := trade_submission (s := { s with budget }) hportal
      { portal with submission := .leased request } rfl rfl rfl
    rw [hsubmission] at htrade
    exact .reserveBytes htrade hbudget rfl (.set hportal rfl ⟨rfl, rfl, rfl, id⟩)
  | rollBack hportal hsubmission hbudget =>
    exact .same (trade_rollBack hportal hsubmission) rfl rfl
      (.set hportal rfl ⟨rfl, rfl, rfl, id⟩)
  | @submit p portal request jobs hportal hsubmission hjobs =>
    have hpushed := trade_submit s ⟨p, portal.jobs.next, request.bytes, request.task⟩
    have hset := trade_submission (by rw [submit_portals]; exact hportal :
        (s.submit ⟨p, portal.jobs.next, request.bytes, request.task⟩).portals[p]? = some portal)
      { portal with jobs, submission := .idle, accepted := portal.accepted ++ [request] }
      rfl rfl rfl
    rw [hsubmission] at hset
    obtain ⟨hbudget, hruns⟩ := submit_budget s ⟨p, portal.jobs.next, request.bytes, request.task⟩
    exact .submit (hpushed.trans hset) hbudget hruns hportal hjobs (submit_setPortal s _ _ _)
  | @cannotStart p portal request hportal hsubmission hspawns =>
    have hset := trade_submission (s := s.drop [request.bytes]) hportal
      { portal with submission := .failed } rfl rfl rfl
    rw [hsubmission] at hset
    exact .drop [.held request.bytes] (by simp) (by simp [Entry.job])
      ((trade_drop s [request.bytes]).trans hset) rfl rfl (.set hportal rfl ⟨rfl, rfl, rfl, id⟩)
  | releaseBytes hdropping =>
    exact .releaseBytes (trade_releaseBytes hdropping _) rfl rfl (.same rfl)
  | releaseJob hreleasing =>
    exact .releaseJob (trade_releaseJob hreleasing _) rfl rfl (.same rfl)
  | sleep hchecking hjobs => exact .same (.refl _) rfl rfl (.same rfl)
  | wakeUp hwaiting => exact .same (.refl _) rfl rfl (.same rfl)
  | pickUp hchecking hjobs => exact .same (trade_pickUp hjobs _ _) rfl rfl (.same rfl)
  | @start i job portal hthread hportal hlife =>
    exact .same (.cancel [.waiting job] (trade_setThread hthread _)) rfl rfl (.same rfl)
  | @skip i job portal hthread hportal hlife =>
    exact .drop [.waiting job] (by simp) (dead_single rfl hportal hlife) (trade_discard hthread _)
      rfl rfl (.same rfl)
  | @run i job reply hthread =>
    exact .run (trade_setThread hthread (.ran job reply)) rfl rfl (.same rfl)
  | @keep i job reply portal hthread hportal hlife =>
    exact .same (.cancel [.answered job reply] (trade_setThread hthread _)) rfl rfl (.same rfl)
  | @discard i job reply portal hthread hportal hlife =>
    exact .drop [.answered job reply] (by simp) (dead_single rfl hportal hlife)
      (trade_discard hthread _) rfl rfl (.same rfl)
  | send hthread hportal hlife =>
    exact .same (trade_send hthread hportal) rfl rfl (.set hportal rfl ⟨rfl, rfl, rfl, id⟩)
  | @cannotSend i job reply portal hthread hportal hlife =>
    exact .drop [.answered job reply] (by simp)
      (dead_single rfl hportal (by rw [hlife]; decide)) (trade_discard hthread _) rfl rfl
      (.same rfl)
  | leave hthread => exact .same (trade_leave hthread _ _) rfl rfl (.same rfl)
  | wait hportal hfree hready hchannel =>
    exact .same (trade_wait hportal hready hchannel) rfl rfl
      (.set hportal rfl ⟨rfl, rfl, rfl, id⟩)
  | complete hportal hfree hnext hjobs =>
    exact .complete (trade_complete hportal hnext _ _) rfl rfl hportal hfree hnext hjobs rfl
  | unexpected hportal hfree hnext hjobs =>
    exact .unexpected (trade_unexpected hportal hfree hnext) rfl rfl hportal hfree hnext hjobs
  | packed hportal hpacking =>
    exact .same (trade_packed hportal hpacking) rfl rfl (.set hportal rfl ⟨rfl, rfl, rfl, id⟩)
  | @cancel p portal hportal hlife hsubmission =>
    exact .same (trade_samePortal hportal { portal with life := .cancelled } rfl) rfl rfl
      (.set hportal rfl ⟨rfl, rfl, rfl, fun _ => hlife⟩)
  | @purge p portal hportal hlife =>
    have hportal' : ({ s with queue := s.queue.cancel p }.drop
        ((s.queue.jobsOf p).map Job.bytes)).portals[p]? = some portal := hportal
    have hset := trade_samePortal hportal' { portal with life := .purged } rfl
    have htrade := (trade_purge s p).trans hset
    rw [List.append_nil, List.append_nil] at htrade
    exact .drop _ (by simp) (dead_purged hportal hlife) htrade rfl rfl
      (.set hportal rfl ⟨rfl, rfl, rfl, fun h => by cases h⟩)
  | close hportal hlife =>
    exact .drop _ (by simp) (dead_closed hrouted hportal hlife) (trade_close hportal) rfl rfl
      (.set hportal rfl ⟨rfl, rfl, rfl, fun h => by cases h⟩)

/-! ## 5. The budget -/

/-- **The invariant of the budget**: the counters are those of the ledger, within the limits. -/
structure Pool.Budgeted (s : Pool T K R) : Prop where
  jobs : s.budget.jobs = s.entries.length
  bytes : s.budget.bytes = (s.entries.map Entry.bytes).sum
  jobs_le : s.budget.jobs ≤ arenaLimit
  bytes_le : s.budget.bytes ≤ retainedBytes

section Budgeted

variable {s s' : Pool T K R}

theorem reserveJob_spec {b b' : Budget} (h : b.reserveJob = .ok b') :
    b.jobs < arenaLimit ∧ b'.jobs = b.jobs + 1 ∧ b'.bytes = b.bytes := by
  unfold Budget.reserveJob at h
  split at h
  · rename_i hroom
    cases h
    exact ⟨hroom, rfl, rfl⟩
  · cases h

theorem reserveBytes_spec {b b' : Budget} {bytes : Nat} (h : b.reserveBytes bytes = .ok b') :
    b.bytes + bytes ≤ retainedBytes ∧ b'.jobs = b.jobs ∧ b'.bytes = b.bytes + bytes := by
  unfold Budget.reserveBytes at h
  split at h
  · rename_i hroom
    cases h
    exact ⟨hroom, rfl, rfl⟩
  · cases h

theorem budgeted_default : (Pool.default : Pool T K R).Budgeted where
  jobs := rfl
  bytes := rfl
  jobs_le := Nat.zero_le _
  bytes_le := Nat.zero_le _

/-- Nothing changes but the places of the leases. -/
theorem Pool.Budgeted.moved (h : s.Budgeted) {old new : List (Entry K R)}
    (htrade : Trade s.entries old new s'.entries) (hlength : new.length = old.length)
    (hbytes : (new.map Entry.bytes).sum = (old.map Entry.bytes).sum)
    (hbudget : s'.budget = s.budget) : s'.Budgeted := by
  have hcount := htrade.length
  have hsum := htrade.sum Entry.bytes
  obtain ⟨hjobs, hsize, hjobs_le, hbytes_le⟩ := h
  refine ⟨?_, ?_, ?_, ?_⟩ <;> rw [hbudget] <;> omega

/-- **Every act keeps the counters right.** -/
theorem Pool.Budgeted.moves (h : s.Budgeted) (hmoves : Moves s s') : s'.Budgeted := by
  obtain ⟨hjobs, hbytes, hjobs_le, hbytes_le⟩ := id h
  cases hmoves with
  | same htrade hbudget | submit htrade hbudget | run htrade hbudget | complete htrade hbudget
  | unexpected htrade hbudget => exact h.moved htrade rfl rfl hbudget
  | drop gone hleases hdead htrade hbudget hruns =>
    refine h.moved htrade (List.length_map _) ?_ hbudget
    rw [List.map_map]
    rfl
  | reserveJob htrade hbudget hruns =>
    have hcount := htrade.length
    have hsum := htrade.sum Entry.bytes
    obtain ⟨hroom, hjobs', hbytes'⟩ := reserveJob_spec hbudget
    simp only [Entry.bytes, List.map_cons, List.map_nil, List.sum_cons, List.sum_nil,
      List.length_cons, List.length_nil] at hcount hsum
    exact ⟨by omega, by omega, by omega, by omega⟩
  | reserveBytes htrade hbudget hruns =>
    have hcount := htrade.length
    have hsum := htrade.sum Entry.bytes
    obtain ⟨hroom, hjobs', hbytes'⟩ := reserveBytes_spec hbudget
    simp only [Entry.bytes, List.map_cons, List.map_nil, List.sum_cons, List.sum_nil,
      List.length_cons, List.length_nil] at hcount hsum
    exact ⟨by omega, by omega, by omega, by omega⟩
  | releaseBytes htrade hbudget hruns =>
    have hcount := htrade.length
    have hsum := htrade.sum Entry.bytes
    have hjobs' := congrArg Budget.jobs hbudget
    have hbytes' := congrArg Budget.bytes hbudget
    simp only [Budget.releaseBytes] at hjobs' hbytes'
    simp only [Entry.bytes, List.map_cons, List.map_nil, List.sum_cons, List.sum_nil,
      List.length_cons, List.length_nil] at hcount hsum
    exact ⟨by omega, by omega, by omega, by omega⟩
  | releaseJob htrade hbudget hruns =>
    have hcount := htrade.length
    have hsum := htrade.sum Entry.bytes
    have hjobs' := congrArg Budget.jobs hbudget
    have hbytes' := congrArg Budget.bytes hbudget
    simp only [Budget.releaseJob] at hjobs' hbytes'
    simp only [Entry.bytes, List.map_cons, List.map_nil, List.sum_cons, List.sum_nil,
      List.length_cons, List.length_nil] at hcount hsum
    exact ⟨by omega, by omega, by omega, by omega⟩

theorem Reached.budgeted (h : Reached s) : s.Budgeted := by
  induction h with
  | default => exact budgeted_default
  | step hs h ih => exact ih.moves (h.moves hs.routed)

end Budgeted

/-! ## 6. The workers -/

/-- **The invariant of the workers.** -/
structure Pool.Staffed (s : Pool T K R) : Prop where
  busy : s.queue.busy = s.threads.length
  workers : s.queue.workers = s.checking + s.waiting + s.queue.busy
  limit : s.queue.workers ≤ workersLimit
  /-- There is a worker for every job until there are as many as there may be. -/
  room : s.queue.jobs.length + s.queue.busy ≤ s.queue.workers ∨ s.queue.workers = workersLimit
  /-- No wake is lost. -/
  awake : s.queue.jobs ≠ [] → 0 < s.checking + s.queue.busy

section Staffed

variable {s s' : Pool T K R}

theorem staffed_default : (Pool.default : Pool T K R).Staffed where
  busy := rfl
  workers := rfl
  limit := Nat.zero_le _
  room := .inl (Nat.le_refl _)
  awake h := absurd rfl h

/-- The queue and the workers do not change. -/
theorem Pool.Staffed.same (h : s.Staffed) (hqueue : s'.queue = s.queue)
    (hchecking : s'.checking = s.checking) (hwaiting : s'.waiting = s.waiting)
    (hthreads : s'.threads.length = s.threads.length) : s'.Staffed := by
  obtain ⟨hbusy, hworkers, hlimit, hroom, hawake⟩ := h
  refine ⟨?_, ?_, ?_, ?_, ?_⟩ <;> rw [hqueue]
  · rw [hthreads]
    exact hbusy
  · rw [hchecking, hwaiting]
    exact hworkers
  · exact hlimit
  · exact hroom
  · rw [hchecking]
    exact hawake

/-- A worker starts for a job that every other worker is busy without. -/
theorem Pool.Staffed.startWorker (h : s.Staffed) (hspawns : s.queue.spawns = true) :
    s.startWorker.Staffed ∧ s.queue.jobs.length + s.queue.busy < s.startWorker.queue.workers := by
  obtain ⟨hbusy, hworkers, hlimit, hroom, hawake⟩ := h
  have hfull : s.queue.workers < workersLimit ∧
      s.queue.workers ≤ s.queue.jobs.length + s.queue.busy := by
    simpa [Queue.spawns] using hspawns
  refine ⟨⟨hbusy, ?_, ?_, .inl ?_, fun _ => ?_⟩, ?_⟩ <;> simp only [Pool.startWorker] <;> omega

/-- A job comes to the queue when there is a worker for it, or there are 64. -/
theorem Pool.Staffed.push (h : s.Staffed) (job : Job K)
    (hroom : s.queue.jobs.length + s.queue.busy < s.queue.workers ∨
      s.queue.workers = workersLimit) : (s.push job).Staffed := by
  obtain ⟨hbusy, hworkers, hlimit, -, hawake⟩ := h
  have hpositive : 0 < workersLimit := by decide
  unfold Pool.push Pool.notifyOne
  split
  · rename_i hwaiting
    refine ⟨hbusy, hworkers, hlimit, ?_, fun _ => ?_⟩
    · simp only [List.length_append, List.length_singleton]
      omega
    · simp only at hwaiting ⊢
      omega
  · rename_i hwaiting
    simp only at hwaiting
    refine ⟨hbusy, ?_, hlimit, ?_, fun _ => ?_⟩ <;>
      simp only [List.length_append, List.length_singleton] <;> omega

/-- **A job enters the queue**, with a worker for it or with 64 of them. -/
theorem Pool.Staffed.submit (h : s.Staffed) (job : Job K) : (s.submit job).Staffed := by
  unfold Pool.submit
  split
  · rename_i hspawns
    obtain ⟨hstaffed, hroom⟩ := h.startWorker hspawns
    exact hstaffed.push job (.inl hroom)
  · rename_i hspawns
    refine h.push job ?_
    have hlimit := h.limit
    have hfree : s.queue.workers < workersLimit →
        s.queue.jobs.length + s.queue.busy < s.queue.workers := by
      simpa [Queue.spawns] using hspawns
    omega

/-- **Every act keeps a worker for every job.** -/
theorem Pool.Staffed.step (h : s.Staffed) (hstep : Step s s') : s'.Staffed := by
  obtain ⟨hbusy, hworkers, hlimit, hroom, hawake⟩ := id h
  cases hstep with
  | openPortal | reserveJob | refuse | reserveBytes | rollBack | cannotStart | releaseBytes
  | releaseJob | wait | complete | unexpected | packed | cancel | close =>
    exact h.same rfl rfl rfl rfl
  | start | skip | run | keep | discard | send | cannotSend =>
    exact h.same rfl rfl rfl (List.length_set ..)
  | submit hportal hsubmission hjobs => exact (h.submit _).same rfl rfl rfl rfl
  | sleep hchecking hjobs =>
    refine ⟨hbusy, by simp only; omega, hlimit, hroom, fun hne => absurd hjobs hne⟩
  | wakeUp hwaiting =>
    refine ⟨hbusy, by simp only; omega, hlimit, hroom, fun _ => by simp only; omega⟩
  | pickUp hchecking hjobs =>
    rw [hjobs, List.length_cons] at hroom
    refine ⟨?_, ?_, hlimit, ?_, fun _ => ?_⟩ <;>
      simp only [List.length_append, List.length_singleton] <;> omega
  | @leave i hthread =>
    obtain ⟨hlt, -⟩ := List.getElem?_eq_some_iff.mp hthread
    refine ⟨?_, ?_, hlimit, ?_, fun _ => ?_⟩ <;>
      simp only [List.length_eraseIdx_of_lt hlt] <;> omega
  | @purge p portal hportal hlife =>
    have hfewer : (s.queue.cancel p).jobs.length ≤ s.queue.jobs.length :=
      List.length_filter_le _ _
    refine ⟨hbusy, hworkers, hlimit, ?_, fun hne => hawake fun hnil => hne ?_⟩
    · change (s.queue.cancel p).jobs.length + s.queue.busy ≤ s.queue.workers ∨
        s.queue.workers = workersLimit
      omega
    · change (s.queue.cancel p).jobs = []
      rw [Queue.cancel, hnil]
      rfl

theorem Reached.staffed (h : Reached s) : s.Staffed := by
  induction h with
  | default => exact staffed_default
  | step _ h ih => exact ih.step h

end Staffed

end TeamyBend.Runtime.HostPool
