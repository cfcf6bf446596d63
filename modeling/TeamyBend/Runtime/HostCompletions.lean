/-
# Every accepted job is completed once

A portal that is alive waits for exactly the jobs that it accepted and did not complete, and each
of these is on the ledger of the pool once: in the queue, with a worker, or answered
(`Tracked.waits`).  A job that was run is not on the ledger as one that waits, so no job runs twice
(`Tracked.once`), and what is completed is the answer of the run of the job, for the continuation
and the handle that were submitted with it.

A completion never stays away: as long as a job is on the ledger some thread can go on, and the
work that is left gets less (`Pool.work`).
-/
import Mathlib.Logic.Relation
import TeamyBend.Runtime.HostLeases

namespace TeamyBend.Runtime.HostPool

open HostJobs (Pending)
open Library (Trade keys_perm_erase keys_insert_new)

variable {T K R : Type}

/-! ## 1. The jobs of a portal -/

/-- The pending job that a request leaves. -/
def Request.pending (request : Request T K) : Pending T := ⟨request.continuation, request.handle⟩

/-- What a machine waits for, and what it was told. -/
structure Portal.Sound (p : Nat) (portal : Portal T K R) : Prop where
  /-- A job that was accepted is pending or completed, once. -/
  ids : (portal.jobs.pending.keys ++ portal.completed.map fun c => c.job.id).Perm
    (List.range portal.jobs.next)
  accepted : portal.accepted.length = portal.jobs.next
  pending : ∀ id pending, portal.jobs.pending.lookup id = some pending →
    ∃ request, portal.accepted[id]? = some request ∧ pending = request.pending
  completed : ∀ completion ∈ portal.completed, completion.job.portal = p ∧
    ∃ request, portal.accepted[completion.job.id]? = some request ∧
      completion.pending = request.pending ∧ completion.job.task = request.task
  opened : portal.jobs.portal = false → portal.jobs.next = 0

/-- A job as its portal accepted it. -/
def Pool.Known (s : Pool T K R) (job : Job K) : Prop :=
  ∃ portal request, s.portals[job.portal]? = some portal ∧
    portal.accepted[job.id]? = some request ∧ job.bytes = request.bytes ∧ job.task = request.task

namespace Entry

/-- The job was not run. -/
def waits : Entry K R → Option (Job K)
  | waiting job => some job
  | _ => none

end Entry

/-- Whether a job is the one with a key. -/
def isKey (key : Nat × Nat) (job : Option (Job K)) : Bool := job.map Job.key == some key

/-- **The invariant of the jobs.** -/
structure Tracked (s : Pool T K R) : Prop where
  sound : ∀ (p : Nat) (portal : Portal T K R), s.portals[p]? = some portal → portal.Sound p
  known : ∀ entry ∈ s.entries, ∀ job, entry.job = some job → s.Known job
  /-- A living portal waits for its jobs on the ledger. -/
  waits : ∀ (p : Nat) (portal : Portal T K R), s.portals[p]? = some portal →
    portal.life = .alive → ∀ id, s.entries.countP (fun entry => isKey (p, id) entry.job) =
      portal.jobs.pending.keys.count id
  /-- No job runs twice. -/
  once : ∀ key, (s.runs.map fun run => run.1.key).count key +
    s.entries.countP (fun entry => isKey key entry.waits) ≤ 1
  ran : ∀ run ∈ s.runs, s.Known run.1
  /-- An answer is that of a run. -/
  answered : ∀ job reply, Entry.answered job reply ∈ s.entries → (job, reply) ∈ s.runs
  completed : ∀ (p : Nat) (portal : Portal T K R), s.portals[p]? = some portal →
    ∀ completion ∈ portal.completed, (completion.job, completion.reply) ∈ s.runs

/-! ## 2. Submitting and completing -/

section Jobs

variable {jobs jobs' : HostJobs.State T} {continuation : T} {handle : Option Nat} {id : Nat}
  {pending : Pending T}

theorem submit_spec (h : jobs.submit continuation handle = .ok jobs') :
    jobs'.portal = true ∧ jobs'.pending = jobs.pending.insert jobs.next ⟨continuation, handle⟩ ∧
      jobs'.next = jobs.next + 1 := by
  unfold HostJobs.State.submit at h
  split at h
  · cases h
  · split at h
    · cases h
    · cases h
      exact ⟨rfl, rfl, rfl⟩

theorem completed_spec (h : jobs.completed (some id) = .ok (some (pending, jobs'))) :
    jobs.pending.lookup id = some pending ∧
      jobs' = { jobs with pending := jobs.pending.erase id } := by
  unfold HostJobs.State.completed at h
  split at h
  · cases h
  · simp only at h
    split at h
    · cases h
    · rename_i hlookup
      cases h
      exact ⟨hlookup, rfl⟩

theorem completed_ok (hportal : jobs.portal = true) (h : jobs.pending.lookup id = some pending) :
    jobs.completed (some id) =
      .ok (some (pending, { jobs with pending := jobs.pending.erase id })) := by
  simp only [HostJobs.State.completed, hportal, h]
  rfl

end Jobs

section Sound

variable {p : Nat} {portal portal' : Portal T K R}

theorem sound_default (p : Nat) : (Portal.default : Portal T K R).Sound p where
  ids := .refl _
  accepted := rfl
  pending id pending h := by cases h
  completed completion h := by cases h
  opened _ := rfl

/-- A pending job has a number that was given out. -/
theorem Portal.Sound.pending_lt (h : portal.Sound p) {id : Nat}
    (hid : id ∈ portal.jobs.pending.keys) : id < portal.jobs.next :=
  List.mem_range.mp (h.ids.mem_iff.mp (List.mem_append_left _ hid))

theorem Portal.Sound.same (h : portal.Sound p) (hsame : portal.Same portal') : portal'.Sound p := by
  obtain ⟨hjobs, haccepted, hcompleted, -⟩ := hsame
  constructor
  · rw [hjobs, hcompleted]
    exact h.ids
  · rw [haccepted, hjobs]
    exact h.accepted
  · rw [haccepted, hjobs]
    exact h.pending
  · rw [haccepted, hcompleted]
    exact h.completed
  · rw [hjobs]
    exact h.opened

/-- What was accepted stays accepted when more is. -/
theorem getElem?_append_of_some {α : Type} {l l' : List α} {i : Nat} {a : α} (h : l[i]? = some a) :
    (l ++ l')[i]? = some a := by
  obtain ⟨hlt, -⟩ := List.getElem?_eq_some_iff.mp h
  rw [List.getElem?_append_left hlt, h]

/-- A job is accepted under the next number. -/
theorem Portal.Sound.submit (h : portal.Sound p) {request : Request T K}
    {jobs : HostJobs.State T}
    (hjobs : portal.jobs.submit request.continuation request.handle = .ok jobs)
    (submission : Submission T K) : Portal.Sound p
      { portal with jobs, submission, accepted := portal.accepted ++ [request] } := by
  obtain ⟨hopened, hpending, hnext⟩ := submit_spec hjobs
  have hnew : portal.jobs.next ∉ portal.jobs.pending := fun hmem =>
    Nat.lt_irrefl _ (h.pending_lt (AList.mem_keys.mp hmem))
  constructor
  · simp only [hpending, hnext, keys_insert_new hnew, List.range_succ]
    calc
      List.Perm _ (portal.jobs.next :: List.range portal.jobs.next) := h.ids.cons _
      List.Perm _ _ := (List.perm_append_singleton _ _).symm
  · simp only [hnext, List.length_append, List.length_singleton, h.accepted]
  · intro id pending hlookup
    simp only [hpending] at hlookup
    by_cases heq : id = portal.jobs.next
    · subst heq
      rw [AList.lookup_insert] at hlookup
      cases hlookup
      refine ⟨request, ?_, rfl⟩
      simp [← h.accepted]
    · rw [AList.lookup_insert_ne heq] at hlookup
      obtain ⟨old, hold, hsame⟩ := h.pending id pending hlookup
      exact ⟨old, getElem?_append_of_some hold, hsame⟩
  · intro completion hcompletion
    obtain ⟨hp, old, hold, hsame⟩ := h.completed completion hcompletion
    exact ⟨hp, old, getElem?_append_of_some hold, hsame⟩
  · intro hclosed
    simp only [hopened] at hclosed
    cases hclosed

/-- A pending job is completed. -/
theorem Portal.Sound.complete (h : portal.Sound p) {job : Job K} {reply : Option R}
    {pending : Pending T} {jobs : HostJobs.State T} (hportal : job.portal = p)
    (hjobs : portal.jobs.completed (some job.id) = .ok (some (pending, jobs)))
    (hknown : ∃ request, portal.accepted[job.id]? = some request ∧ job.task = request.task)
    (hjobs' : portal'.jobs = jobs) (haccepted : portal'.accepted = portal.accepted)
    (hcompleted : portal'.completed = portal.completed ++ [⟨pending, job, reply⟩]) :
    portal'.Sound p := by
  obtain ⟨hlookup, rfl⟩ := completed_spec hjobs
  have hmem : job.id ∈ portal.jobs.pending := by
    rw [← AList.lookup_isSome, hlookup]
    rfl
  constructor <;> simp only [hjobs', haccepted, hcompleted]
  · refine List.Perm.trans ?_ h.ids
    simp only [List.map_append, List.map_cons, List.map_nil, ← List.append_assoc]
    refine (List.perm_append_singleton _ _).trans ?_
    exact ((keys_perm_erase hmem).append_right _).symm
  · exact h.accepted
  · intro id other hother
    by_cases heq : id = job.id
    · subst heq
      rw [AList.lookup_erase] at hother
      cases hother
    · rw [AList.lookup_erase_ne heq] at hother
      exact h.pending id other hother
  · intro completion hcompletion
    rcases List.mem_append.mp hcompletion with hold | hnew
    · exact h.completed completion hold
    · rw [List.mem_singleton.mp hnew]
      obtain ⟨request, haccepted, htask⟩ := hknown
      obtain ⟨request', haccepted', hpending⟩ := h.pending job.id pending hlookup
      rw [haccepted] at haccepted'
      cases haccepted'
      exact ⟨hportal, request, haccepted, hpending, htask⟩
  · exact h.opened

end Sound

/-! ## 3. Every act keeps track -/

section Portals

variable {s s' : Pool T K R} {job : Job K} {p : Nat} {portal : Portal T K R}

/-- What was accepted before an act was accepted. -/
theorem Pool.Known.grow (h : s.Known job) (hgrow : ∀ (q : Nat) (old : Portal T K R),
    s.portals[q]? = some old → ∃ new, s'.portals[q]? = some new ∧ old.accepted <+: new.accepted) :
    s'.Known job := by
  obtain ⟨portal, request, hportal, haccepted, hsame⟩ := h
  obtain ⟨portal', hportal', suffix, hsuffix⟩ := hgrow _ _ hportal
  refine ⟨portal', request, hportal', ?_, hsame⟩
  rw [← hsuffix]
  exact getElem?_append_of_some haccepted

theorem Quiet.grow (h : Quiet s s') (q : Nat) (old : Portal T K R)
    (hold : s.portals[q]? = some old) :
    ∃ new, s'.portals[q]? = some new ∧ old.accepted <+: new.accepted := by
  obtain ⟨hlt, -⟩ := List.getElem?_eq_some_iff.mp hold
  obtain ⟨new, hnew⟩ : ∃ new, s'.portals[q]? = some new :=
    ⟨_, List.getElem?_eq_getElem (Nat.lt_of_lt_of_le hlt h.length)⟩
  refine ⟨new, hnew, ?_⟩
  rcases h.portal q new hnew with ⟨hnone, -⟩ | ⟨portal, hportal, hsame⟩
  · rw [hold] at hnone
    cases hnone
  · rw [hold] at hportal
    cases hportal
    exact hsame.accepted ▸ List.prefix_rfl

/-- One portal changed. -/
theorem grow_of_set {portal' : Portal T K R} (hportal : s.portals[p]? = some portal)
    (hset : s'.portals = s.portals.set p portal') (haccepted : portal.accepted <+: portal'.accepted)
    (q : Nat) (old : Portal T K R) (hold : s.portals[q]? = some old) :
    ∃ new, s'.portals[q]? = some new ∧ old.accepted <+: new.accepted := by
  obtain ⟨hlt, -⟩ := List.getElem?_eq_some_iff.mp hportal
  rw [hset]
  by_cases heq : p = q
  · subst heq
    rw [hportal] at hold
    cases hold
    exact ⟨portal', List.getElem?_set_self hlt, haccepted⟩
  · exact ⟨old, by rw [List.getElem?_set_ne heq, hold], List.prefix_rfl⟩

/-- The portals after one changed. -/
theorem portal_of_set {portal' : Portal T K R} (hportal : s.portals[p]? = some portal)
    (hset : s'.portals = s.portals.set p portal') {q : Nat} {new : Portal T K R}
    (hnew : s'.portals[q]? = some new) :
    q = p ∧ new = portal' ∨ q ≠ p ∧ s.portals[q]? = some new := by
  obtain ⟨hlt, -⟩ := List.getElem?_eq_some_iff.mp hportal
  rw [hset] at hnew
  by_cases heq : p = q
  · subst heq
    rw [List.getElem?_set_self hlt] at hnew
    cases hnew
    exact .inl ⟨rfl, rfl⟩
  · rw [List.getElem?_set_ne heq] at hnew
    exact .inr ⟨Ne.symm heq, hnew⟩

end Portals

section Tracked

variable {s s' : Pool T K R} {p : Nat} {portal : Portal T K R}

theorem tracked_default : Tracked (Pool.default : Pool T K R) := by
  constructor
  · exact fun p portal h => by cases h
  · exact fun entry h => by cases h
  · exact fun p portal h => by cases h
  · exact fun key => Nat.zero_le _
  · exact fun run h => by cases h
  · exact fun job reply h => by cases h
  · exact fun p portal h => by cases h

theorem isKey_some {key : Nat × Nat} {job : Job K} :
    isKey key (some job) = true ↔ job.key = key := by
  simp [isKey]

/-- The jobs of an entry that an act puts on the ledger were on it before. -/
theorem Tracked.known_of_trade (h : Tracked s) {old new : List (Entry K R)}
    (htrade : Trade s.entries old new s'.entries)
    (hgrow : ∀ job : Job K, s.Known job → s'.Known job)
    (hnew : ∀ entry ∈ new, ∀ job, entry.job = some job → s'.Known job) :
    ∀ entry ∈ s'.entries, ∀ job, entry.job = some job → s'.Known job := by
  intro entry hentry job hjob
  rcases htrade.mem hentry with hold | hfresh
  · exact hgrow job (h.known entry hold job hjob)
  · exact hnew entry hfresh job hjob

/-- No entry is for a portal that was never opened. -/
theorem countP_unopened (hp : s.portals[p]? = none) {entries : List (Entry K R)}
    (hknown : ∀ entry ∈ entries, ∀ job, entry.job = some job → s.Known job) (id : Nat) :
    entries.countP (fun entry => isKey (p, id) entry.job) = 0 := by
  rw [List.countP_eq_zero]
  intro entry hentry hkey
  cases hjob : entry.job with
  | none => rw [hjob] at hkey; cases hkey
  | some job =>
    rw [hjob, isKey_some] at hkey
    obtain ⟨portal, -, hportal, -⟩ := hknown entry hentry job hjob
    have hq : job.portal = p := congrArg Prod.fst hkey
    rw [hq, hp] at hportal
    cases hportal

/-- The portals stay, and so does what the living ones wait for. -/
theorem Tracked.quiet (h : Tracked s) {old new : List (Entry K R)}
    (htrade : Trade s.entries old new s'.entries) (hquiet : Quiet s s')
    (hruns : ∃ ran, s'.runs = s.runs ++ ran ∧ (∀ run ∈ ran, s.Known run.1) ∧
      (∀ job reply, Entry.answered job reply ∈ new → (job, reply) ∈ s.runs ++ ran) ∧
      ∀ key, (ran.map fun run => run.1.key).count key +
        new.countP (fun entry => isKey key entry.waits) ≤
          old.countP (fun entry => isKey key entry.waits))
    (hnew : ∀ entry ∈ new, ∀ job, entry.job = some job → s.Known job)
    (hwaits : ∀ (q : Nat) (portal : Portal T K R), s.portals[q]? = some portal →
      portal.life = .alive → ∀ id, new.countP (fun entry => isKey (q, id) entry.job) =
        old.countP fun entry => isKey (q, id) entry.job) : Tracked s' := by
  have hgrow : ∀ job : Job K, s.Known job → s'.Known job := fun job hjob => hjob.grow hquiet.grow
  obtain ⟨ran, hruns, hran, hanswered, honce⟩ := hruns
  constructor
  · intro q portal' hportal'
    rcases hquiet.portal q portal' hportal' with ⟨-, rfl⟩ | ⟨portal, hportal, hsame⟩
    · exact sound_default q
    · exact (h.sound q portal hportal).same hsame
  · exact h.known_of_trade htrade hgrow fun entry hentry job hjob =>
      hgrow job (hnew entry hentry job hjob)
  · intro q portal' hportal' halive id
    have hcount := htrade.countP fun entry => isKey (q, id) entry.job
    rcases hquiet.portal q portal' hportal' with ⟨hnone, rfl⟩ | ⟨portal, hportal, hsame⟩
    · have hbefore := countP_unopened hnone h.known id
      have hfresh := countP_unopened hnone hnew id
      change _ = 0
      omega
    · have hsame' := hwaits q portal hportal (hsame.life halive) id
      have hold := h.waits q portal hportal (hsame.life halive) id
      rw [hsame.jobs]
      omega
  · intro key
    have hcount := htrade.countP fun entry => isKey key entry.waits
    have hold := h.once key
    have hless := honce key
    rw [hruns, List.map_append, List.count_append]
    omega
  · intro run hrun
    rw [hruns] at hrun
    rcases List.mem_append.mp hrun with hrun | hrun
    · exact hgrow _ (h.ran run hrun)
    · exact hgrow _ (hran run hrun)
  · intro job reply hentry
    rw [hruns]
    rcases htrade.mem hentry with hold | hfresh
    · exact List.mem_append_left _ (h.answered job reply hold)
    · exact hanswered job reply hfresh
  · intro q portal' hportal' completion hcompletion
    rw [hruns]
    rcases hquiet.portal q portal' hportal' with ⟨-, rfl⟩ | ⟨portal, hportal, hsame⟩
    · cases hcompletion
    · rw [hsame.completed] at hcompletion
      exact List.mem_append_left _ (h.completed q portal hportal completion hcompletion)

/-- An entry without a job neither waits nor was answered. -/
theorem waits_of_job {entry : Entry K R} (h : entry.job = none) : entry.waits = none := by
  cases entry with
  | waiting job => cases h
  | _ => rfl

theorem countP_isKey_zero {entries : List (Entry K R)} {f : Entry K R → Option (Job K)}
    (h : ∀ entry ∈ entries, f entry = none) (key : Nat × Nat) :
    entries.countP (fun entry => isKey key (f entry)) = 0 := by
  rw [List.countP_eq_zero]
  intro entry hentry hkey
  rw [h entry hentry] at hkey
  cases hkey

theorem countP_isKey_one {entry : Entry K R} {f : Entry K R → Option (Job K)} {job : Job K}
    (h : f entry = some job) (key : Nat × Nat) :
    [entry].countP (fun entry => isKey key (f entry)) = if job.key = key then 1 else 0 := by
  simp only [List.countP_cons, List.countP_nil, h, isKey_some, Nat.zero_add]

/-- Nothing runs, and the entries that are put on the ledger have no job. -/
theorem Tracked.still (h : Tracked s) {old new : List (Entry K R)}
    (htrade : Trade s.entries old new s'.entries) (hquiet : Quiet s s') (hruns : s'.runs = s.runs)
    (hnew : ∀ entry ∈ new, entry.job = none)
    (hold : ∀ entry ∈ old, ∀ job, entry.job = some job → s.Dead job) : Tracked s' := by
  refine h.quiet htrade hquiet ⟨[], by rw [hruns, List.append_nil], by simp, ?_, ?_⟩ ?_ ?_
  · intro job reply hentry
    cases hnew _ hentry
  · intro key
    rw [countP_isKey_zero fun entry hentry => waits_of_job (hnew entry hentry)]
    exact Nat.zero_le _
  · intro entry hentry job hjob
    rw [hnew entry hentry] at hjob
    cases hjob
  · intro q portal hportal halive id
    rw [countP_isKey_zero hnew, eq_comm, List.countP_eq_zero]
    intro entry hentry hkey
    cases hjob : entry.job with
    | none => rw [hjob] at hkey; cases hkey
    | some job =>
      obtain ⟨dead, hdead, hlife⟩ := hold entry hentry job hjob
      rw [hjob, isKey_some] at hkey
      have hq : job.portal = q := congrArg Prod.fst hkey
      rw [hq, hportal] at hdead
      cases hdead
      exact hlife halive

/-- A task runs. -/
theorem Tracked.run (h : Tracked s) {job : Job K} {reply : Option R}
    (htrade : Trade s.entries [.waiting job] [.answered job reply] s'.entries)
    (hruns : s'.runs = s.runs ++ [(job, reply)]) (hquiet : Quiet s s') : Tracked s' := by
  have hwaiting : Entry.waiting job ∈ s.entries := by
    rcases htrade.mem_old List.mem_cons_self with hbefore | hnew
    · exact hbefore
    · rw [List.mem_singleton] at hnew
      cases hnew
  have hknown := h.known _ hwaiting job rfl
  refine h.quiet htrade hquiet ⟨[(job, reply)], hruns, ?_, ?_, ?_⟩ ?_ fun _ _ _ _ _ => rfl
  · intro run hrun
    rw [List.mem_singleton.mp hrun]
    exact hknown
  · intro job' reply' hentry
    rw [List.mem_singleton] at hentry
    cases hentry
    exact List.mem_append_right _ List.mem_cons_self
  · intro key
    -- the job does not wait any more
    simp only [List.map_cons, List.map_nil, List.count_cons, List.count_nil, List.countP_cons,
      List.countP_nil, Entry.waits, isKey_some, beq_iff_eq]
    exact Nat.le_refl _
  · intro entry hentry job' hjob
    rw [List.mem_singleton.mp hentry] at hjob
    cases hjob
    exact hknown

/-- The next number of a portal was not accepted yet. -/
theorem Tracked.fresh (h : Tracked s) (hportal : s.portals[p]? = some portal) {job : Job K}
    (hknown : s.Known job) : job.key ≠ (p, portal.jobs.next) := by
  intro hkey
  obtain ⟨portal', request, hportal', haccepted, -⟩ := hknown
  have hq : job.portal = p := congrArg Prod.fst hkey
  have hid : job.id = portal.jobs.next := congrArg Prod.snd hkey
  rw [hq, hportal] at hportal'
  cases hportal'
  obtain ⟨hlt, -⟩ := List.getElem?_eq_some_iff.mp haccepted
  have hlength := (h.sound p portal hportal).accepted
  omega

/-- A job enters the queue. -/
theorem Tracked.submit (h : Tracked s) {request : Request T K} {jobs : HostJobs.State T}
    (htrade : Trade s.entries [.held request.bytes]
      [.waiting ⟨p, portal.jobs.next, request.bytes, request.task⟩] s'.entries)
    (hruns : s'.runs = s.runs) (hportal : s.portals[p]? = some portal)
    (hjobs : portal.jobs.submit request.continuation request.handle = .ok jobs)
    (hset : s'.portals = s.portals.set p
      { portal with jobs, submission := .idle, accepted := portal.accepted ++ [request] }) :
    Tracked s' := by
  have hgrow : ∀ job : Job K, s.Known job → s'.Known job := fun job hjob =>
    hjob.grow (grow_of_set hportal hset (List.prefix_append _ _))
  have hsound := h.sound p portal hportal
  obtain ⟨-, hpending, -⟩ := submit_spec hjobs
  constructor
  · intro q other hother
    rcases portal_of_set hportal hset hother with ⟨rfl, rfl⟩ | ⟨-, hold⟩
    · exact hsound.submit hjobs .idle
    · exact h.sound q other hold
  · refine h.known_of_trade htrade hgrow fun entry hentry job hjob => ?_
    rw [List.mem_singleton.mp hentry] at hjob
    cases hjob
    obtain ⟨hlt, -⟩ := List.getElem?_eq_some_iff.mp hportal
    have hportal' : s'.portals[p]? = some { portal with
        jobs, submission := .idle, accepted := portal.accepted ++ [request] } := by
      rw [hset, List.getElem?_set_self hlt]
    exact ⟨_, request, hportal', by simp [← hsound.accepted], rfl, rfl⟩
  · intro q other hother halive id
    have hcount := htrade.countP fun entry => isKey (q, id) entry.job
    have hheld : ([.held request.bytes] : List (Entry K R)).countP
      (fun entry => isKey (q, id) entry.job) = 0 := rfl
    rw [hheld, countP_isKey_one rfl] at hcount
    rcases portal_of_set hportal hset hother with ⟨rfl, rfl⟩ | ⟨hne, hold⟩
    · have hnew : portal.jobs.next ∉ portal.jobs.pending := fun hmem =>
        Nat.lt_irrefl _ (hsound.pending_lt (AList.mem_keys.mp hmem))
      have hwaits := h.waits q portal hportal halive id
      simp only [Job.key, Prod.mk.injEq, true_and] at hcount
      simp only [hpending, keys_insert_new hnew, List.count_cons, beq_iff_eq]
      omega
    · have hwaits := h.waits q other hold halive id
      rw [if_neg fun heq => hne (congrArg Prod.fst heq).symm] at hcount
      omega
  · intro key
    have hcount := htrade.countP fun entry => isKey key entry.waits
    have hheld : ([.held request.bytes] : List (Entry K R)).countP
      (fun entry => isKey key entry.waits) = 0 := rfl
    rw [hheld, countP_isKey_one rfl] at hcount
    have honce := h.once key
    rw [hruns]
    by_cases heq : Job.key (⟨p, portal.jobs.next, request.bytes, request.task⟩ : Job K) = key
    · rw [if_pos heq] at hcount
      obtain rfl : (p, portal.jobs.next) = key := heq
      have hran : (s.runs.map fun run => run.1.key).count (p, portal.jobs.next) = 0 := by
        rw [List.count_eq_zero]
        intro hmem
        obtain ⟨run, hrun, hkey⟩ := List.mem_map.mp hmem
        exact h.fresh hportal (h.ran run hrun) hkey
      have hwaiting : s.entries.countP
          (fun entry => isKey (p, portal.jobs.next) entry.waits) = 0 := by
        rw [List.countP_eq_zero]
        intro entry hentry hkey
        cases entry with
        | waiting job => exact h.fresh hportal (h.known _ hentry job rfl) (isKey_some.mp hkey)
        | _ => cases hkey
      omega
    · rw [if_neg heq] at hcount
      omega
  · intro run hrun
    rw [hruns] at hrun
    exact hgrow _ (h.ran run hrun)
  · intro job reply hentry
    rw [hruns]
    rcases htrade.mem hentry with hold | hnew
    · exact h.answered job reply hold
    · rw [List.mem_singleton] at hnew
      cases hnew
  · intro q other hother completion hcompletion
    rw [hruns]
    rcases portal_of_set hportal hset hother with ⟨rfl, rfl⟩ | ⟨-, hold⟩
    · exact h.completed q portal hportal completion hcompletion
    · exact h.completed q other hold completion hcompletion

theorem next_eq {rest : Portal T K R} {finished : Finished K R}
    (h : portal.next = some (finished, rest)) :
    rest = { portal with channel := rest.channel, ready := rest.ready } := by
  unfold Portal.next at h
  split at h
  · cases h
    rfl
  · split at h
    · cases h
      rfl
    · cases h

/-- An answer that a portal reads is on the ledger. -/
theorem answer_mem (hportal : s.portals[p]? = some portal) {finished : Finished K R}
    {rest : Portal T K R} (hnext : portal.next = some (finished, rest)) :
    Entry.answered finished.job finished.reply ∈ s.entries := by
  have hmem : Entry.answered finished.job finished.reply ∈ portal.entries := by
    rcases (trade_next hnext).mem_old List.mem_cons_self with hmem | hnone
    · exact hmem
    · cases hnone
  have hheld : portal ∈ s.portals := List.mem_of_getElem? hportal
  simp only [Pool.entries, List.mem_append]
  exact .inl (.inl (.inr (List.mem_flatMap.mpr ⟨portal, hheld, hmem⟩)))

/-- **A machine expects every answer that it reads.** -/
theorem Tracked.expected (h : Tracked s) (hrouted : s.Routed)
    (hportal : s.portals[p]? = some portal) (halive : portal.life = .alive)
    {finished : Finished K R} {rest : Portal T K R} (hnext : portal.next = some (finished, rest)) :
    ∃ pending, portal.jobs.pending.lookup finished.job.id = some pending ∧
      portal.jobs.completed (some finished.job.id) = .ok (some (pending,
        { portal.jobs with pending := portal.jobs.pending.erase finished.job.id })) := by
  have hsound := h.sound p portal hportal
  have hp := (next_routed hnext (hrouted p portal hportal)).1
  have hcount : 0 < s.entries.countP fun entry => isKey (p, finished.job.id) entry.job :=
    List.countP_pos_iff.mpr ⟨_, answer_mem hportal hnext, isKey_some.mpr (by rw [Job.key, hp])⟩
  rw [h.waits p portal hportal halive, List.count_pos_iff] at hcount
  obtain ⟨pending, hlookup⟩ := Option.isSome_iff_exists.mp
    (AList.lookup_isSome.mpr (AList.mem_keys.mpr hcount))
  have hopened : portal.jobs.portal = true := by
    by_contra hclosed
    have hnone := hsound.opened (by simpa using hclosed)
    have hlt := hsound.pending_lt hcount
    omega
  exact ⟨pending, hlookup, completed_ok hopened hlookup⟩

/-- A machine reads an answer. -/
theorem Tracked.complete (h : Tracked s) (hrouted : s.Routed) {rest : Portal T K R}
    {finished : Finished K R} {pending : Pending T} {jobs : HostJobs.State T}
    (htrade : Trade s.entries [.answered finished.job finished.reply] [.spent finished.job.bytes]
      s'.entries)
    (hruns : s'.runs = s.runs) (hportal : s.portals[p]? = some portal)
    (hnext : portal.next = some (finished, rest))
    (hjobs : portal.jobs.completed (some finished.job.id) = .ok (some (pending, jobs)))
    (hset : s'.portals = s.portals.set p { rest with
      jobs
      packing := rest.packing ++ [⟨pending, finished.job, finished.reply⟩]
      completed := rest.completed ++ [⟨pending, finished.job, finished.reply⟩] }) :
    Tracked s' := by
  have hp := (next_routed hnext (hrouted p portal hportal)).1
  have hmem := answer_mem hportal hnext
  rw [next_eq hnext] at hset
  have hgrow : ∀ job : Job K, s.Known job → s'.Known job := fun job hjob =>
    hjob.grow (grow_of_set hportal hset List.prefix_rfl)
  obtain ⟨hlookup, hjobs'⟩ := completed_spec hjobs
  constructor
  · intro q other hother
    rcases portal_of_set hportal hset hother with ⟨rfl, rfl⟩ | ⟨-, hold⟩
    · refine (h.sound q portal hportal).complete hp hjobs ?_ rfl rfl rfl
      obtain ⟨portal', request, hportal', haccepted, -, htask⟩ := h.known _ hmem _ rfl
      rw [hp, hportal] at hportal'
      cases hportal'
      exact ⟨request, haccepted, htask⟩
    · exact h.sound q other hold
  · refine h.known_of_trade htrade hgrow fun entry hentry job hjob => ?_
    rw [List.mem_singleton.mp hentry] at hjob
    cases hjob
  · intro q other hother halive id
    have hcount := htrade.countP fun entry => isKey (q, id) entry.job
    have hover : ([.spent finished.job.bytes] : List (Entry K R)).countP
      (fun entry => isKey (q, id) entry.job) = 0 := rfl
    rw [hover, countP_isKey_one rfl, Job.key, hp] at hcount
    rcases portal_of_set hportal hset hother with ⟨rfl, rfl⟩ | ⟨hne, hold⟩
    · have hwaits := h.waits q portal hportal halive id
      simp only [hjobs', AList.keys_erase]
      by_cases heq : finished.job.id = id
      · rw [if_pos (by rw [heq])] at hcount
        rw [heq, List.count_erase_self]
        omega
      · rw [if_neg fun hpair => heq (congrArg Prod.snd hpair)] at hcount
        rw [List.count_erase_of_ne (Ne.symm heq)]
        omega
    · have hwaits := h.waits q other hold halive id
      rw [if_neg fun heq => hne (congrArg Prod.fst heq).symm] at hcount
      omega
  · intro key
    have hcount := htrade.countP fun entry => isKey key entry.waits
    have hnone : ([.answered finished.job finished.reply] : List (Entry K R)).countP
      (fun entry => isKey key entry.waits) = 0 := rfl
    have hover : ([.spent finished.job.bytes] : List (Entry K R)).countP
      (fun entry => isKey key entry.waits) = 0 := rfl
    have honce := h.once key
    rw [hruns]
    omega
  · intro run hrun
    rw [hruns] at hrun
    exact hgrow _ (h.ran run hrun)
  · intro job reply hentry
    rw [hruns]
    rcases htrade.mem hentry with hold | hnew
    · exact h.answered job reply hold
    · rw [List.mem_singleton] at hnew
      cases hnew
  · intro q other hother completion hcompletion
    rw [hruns]
    rcases portal_of_set hportal hset hother with ⟨rfl, rfl⟩ | ⟨-, hold⟩
    · rcases List.mem_append.mp hcompletion with hold | hnew
      · exact h.completed q portal hportal completion hold
      · rw [List.mem_singleton.mp hnew]
        exact h.answered _ _ hmem
    · exact h.completed q other hold completion hcompletion

/-- **Every act keeps track of the jobs.** -/
theorem Tracked.moves (h : Tracked s) (hrouted : s.Routed) (hmoves : Moves s s') :
    Tracked s' := by
  cases hmoves with
  | same htrade hbudget hruns hquiet => exact h.still htrade hquiet hruns (by simp) (by simp)
  | reserveJob htrade hbudget hruns hquiet =>
    exact h.still htrade hquiet hruns (by simp [Entry.job]) (by simp)
  | reserveBytes htrade hbudget hruns hquiet =>
    exact h.still htrade hquiet hruns (by simp [Entry.job]) (by simp [Entry.job])
  | releaseBytes htrade hbudget hruns hquiet =>
    exact h.still htrade hquiet hruns (by simp [Entry.job]) (by simp [Entry.job])
  | releaseJob htrade hbudget hruns hquiet =>
    exact h.still htrade hquiet hruns (by simp) (by simp [Entry.job])
  | drop gone hleases hdead htrade hbudget hruns hquiet =>
    exact h.still htrade hquiet hruns (by simp [Entry.toOver, Entry.job]) hdead
  | run htrade hbudget hruns hquiet => exact h.run htrade hruns hquiet
  | submit htrade hbudget hruns hportal hjobs hset =>
    exact h.submit htrade hruns hportal hjobs hset
  | complete htrade hbudget hruns hportal hfree hnext hjobs hset =>
    exact h.complete hrouted htrade hruns hportal hnext hjobs hset
  | unexpected htrade hbudget hruns hportal hfree hnext hjobs =>
    obtain ⟨pending, hlookup, hcompleted⟩ := h.expected hrouted hportal hfree.1 hnext
    rw [hcompleted] at hjobs
    cases hjobs

theorem Reached.tracked (h : Reached s) : Tracked s := by
  induction h with
  | default => exact tracked_default
  | step hs h ih => exact ih.moves hs.routed (h.moves hs.routed)

end Tracked

/-! ## 4. Some thread can go on -/

/-- The acts that a busy worker has before it. -/
def Worker.left : Worker K R → Nat
  | picked _ => 6
  | running _ => 5
  | ran _ _ => 4
  | sending _ _ => 3
  | leaving => 1

/-- What a portal has to read. -/
def Portal.unread (portal : Portal T K R) : Nat := portal.channel.length + portal.ready.length

/-- What is left to do until a portal knows all its answers. -/
def Pool.work (s : Pool T K R) (p : Nat) : Nat :=
  7 * s.queue.jobs.length + (s.threads.map Worker.left).sum +
    ((s.portals[p]?).map Portal.unread).getD 0

/-- A free portal stays free, less work is left, and what was run has the reply it was to have. -/
structure Advance (answer : Job K → Option R) (p : Nat) (portal : Portal T K R)
    (s s' : Pool T K R) : Prop where
  step : Step s s'
  less : s'.work p < s.work p
  free : ∃ portal', s'.portals[p]? = some portal' ∧ portal'.Free ∧
    portal'.accepted = portal.accepted
  runs : s'.runs = s.runs ∨ ∃ job, s'.runs = s.runs ++ [(job, answer job)]

section Progress

variable {s : Pool T K R} {p : Nat} {portal : Portal T K R} {answer : Job K → Option R}

theorem work_of {s' : Pool T K R} {portal' : Portal T K R} (hportal : s.portals[p]? = some portal)
    (hportal' : s'.portals[p]? = some portal')
    (hless : 7 * s'.queue.jobs.length + (s'.threads.map Worker.left).sum + portal'.unread <
      7 * s.queue.jobs.length + (s.threads.map Worker.left).sum + portal.unread) :
    s'.work p < s.work p := by
  simp only [Pool.work, hportal, hportal', Option.map_some, Option.getD_some]
  exact hless

theorem next_unread {finished : Finished K R} {rest : Portal T K R}
    (h : portal.next = some (finished, rest)) : rest.unread < portal.unread := by
  unfold Portal.next at h
  split at h
  · rename_i hready
    cases h
    simp only [Portal.unread, hready, List.length_cons]
    omega
  · split at h
    · rename_i hchannel
      cases h
      simp only [Portal.unread, hchannel, List.length_cons]
      omega
    · cases h

/-- The portal reads an answer. -/
theorem advance_complete (htracked : Tracked s) (hrouted : s.Routed)
    (hportal : s.portals[p]? = some portal) (hfree : portal.Free) {finished : Finished K R}
    {rest : Portal T K R} (hnext : portal.next = some (finished, rest)) :
    ∃ s', Advance answer p portal s s' := by
  obtain ⟨pending, -, hcompleted⟩ := htracked.expected hrouted hportal hfree.1 hnext
  obtain ⟨hlt, -⟩ := List.getElem?_eq_some_iff.mp hportal
  have hsame := next_eq hnext
  have hunread := next_unread hnext
  refine ⟨_, .complete hportal hfree hnext hcompleted, ?_, ⟨_, List.getElem?_set_self hlt, ?_, ?_⟩,
    .inl rfl⟩
  · exact work_of hportal (List.getElem?_set_self hlt) (Nat.add_lt_add_left hunread _)
  · rw [hsame]
    exact hfree
  · rw [hsame]

/-- The first busy worker goes on. -/
theorem advance_thread (htracked : Tracked s) (hportal : s.portals[p]? = some portal)
    (hfree : portal.Free) {worker : Worker K R} {threads : List (Worker K R)}
    (hthreads : s.threads = worker :: threads) : ∃ s', Advance answer p portal s s' := by
  have hthread : s.threads[0]? = some worker := by rw [hthreads]; rfl
  -- a worker takes another place, and may drop the lease of its job
  have hset : ∀ worker' : Worker K R, worker'.left < worker.left →
      (s.setThread 0 worker').work p < s.work p := by
    intro worker' hless
    refine work_of hportal hportal ?_
    simp only [Pool.setThread, hthreads, List.set_cons_zero, List.map_cons, List.sum_cons]
    omega
  have hopen : ∀ job, (∃ entry ∈ worker.entries, entry.job = some job) →
      ∃ other, s.portals[job.portal]? = some other := by
    rintro job ⟨entry, hentry, hjob⟩
    have hmem : entry ∈ s.entries := by
      simp only [Pool.entries, hthreads, List.flatMap_cons, List.mem_append]
      exact .inl (.inl (.inl (.inr (.inl hentry))))
    obtain ⟨other, -, hother, -⟩ := htracked.known entry hmem job hjob
    exact ⟨other, hother⟩
  cases worker with
  | picked job =>
    obtain ⟨other, hother⟩ := hopen job ⟨_, List.mem_cons_self, rfl⟩
    by_cases hlife : other.life = .alive
    · exact ⟨_, .start hthread hother hlife, hset _ (by decide : 5 < 6),
        ⟨portal, hportal, hfree, rfl⟩, .inl rfl⟩
    · exact ⟨_, .skip hthread hother hlife, hset .leaving (by decide : 1 < 6),
        ⟨portal, hportal, hfree, rfl⟩, .inl rfl⟩
  | running job =>
    exact ⟨_, .run (answer job) hthread, hset (.ran job (answer job)) (by decide : 4 < 5),
      ⟨portal, hportal, hfree, rfl⟩, .inr ⟨job, rfl⟩⟩
  | ran job reply =>
    obtain ⟨other, hother⟩ := hopen job ⟨_, List.mem_cons_self, rfl⟩
    by_cases hlife : other.life = .alive
    · exact ⟨_, .keep hthread hother hlife, hset _ (by decide : 3 < 4),
        ⟨portal, hportal, hfree, rfl⟩, .inl rfl⟩
    · exact ⟨_, .discard hthread hother hlife, hset .leaving (by decide : 1 < 4),
        ⟨portal, hportal, hfree, rfl⟩, .inl rfl⟩
  | sending job reply =>
    obtain ⟨other, hother⟩ := hopen job ⟨_, List.mem_cons_self, rfl⟩
    obtain ⟨hlt, -⟩ := List.getElem?_eq_some_iff.mp hother
    by_cases hlife : other.life = .closed
    · exact ⟨_, .cannotSend hthread hother hlife, hset .leaving (by decide : 1 < 3),
        ⟨portal, hportal, hfree, rfl⟩, .inl rfl⟩
    by_cases heq : job.portal = p
    · obtain rfl : other = portal := by
        rw [heq, hportal] at hother
        cases hother
        rfl
      subst heq
      refine ⟨_, .send hthread hother hlife, ?_, ⟨_, List.getElem?_set_self hlt, hfree, rfl⟩,
        .inl rfl⟩
      refine work_of hportal (List.getElem?_set_self hlt) ?_
      simp only [Pool.setPortal, Pool.setThread, hthreads, List.set_cons_zero, List.map_cons,
        List.sum_cons, Worker.left, Portal.unread, List.length_append, List.length_singleton]
      omega
    · have hstays : ((s.setThread 0 .leaving).setPortal job.portal
          { other with channel := other.channel ++ [⟨job, reply⟩] }).portals[p]? =
            some portal := by
        rw [Pool.setPortal, Pool.setThread, List.getElem?_set_ne heq, hportal]
      refine ⟨_, .send hthread hother hlife, work_of hportal hstays ?_,
        ⟨portal, hstays, hfree, rfl⟩, .inl rfl⟩
      simp only [Pool.setPortal, Pool.setThread, hthreads, List.set_cons_zero, List.map_cons,
        List.sum_cons, Worker.left]
      omega
  | leaving =>
    refine ⟨_, .leave hthread, work_of hportal hportal ?_, ⟨portal, hportal, hfree, rfl⟩, .inl rfl⟩
    simp only [hthreads, List.eraseIdx_cons_zero, List.map_cons, List.sum_cons, Worker.left]
    omega

/-- A portal that waits for a job has it in the queue when nobody else has. -/
theorem waiting_in_queue (htracked : Tracked s) (hrouted : s.Routed)
    (hportal : s.portals[p]? = some portal) (hfree : portal.Free) {id : Nat}
    (hid : id ∈ portal.jobs.pending.keys) (hnext : portal.next = none)
    (hthreads : s.threads = []) : s.queue.jobs ≠ [] := by
  intro hqueue
  have hread : portal.channel ++ portal.ready = [] := by
    unfold Portal.next at hnext
    split at hnext
    · cases hnext
    · split at hnext
      · cases hnext
      · rename_i hready _ hchannel
        rw [hready, hchannel]
        rfl
  have hcount : 0 < s.entries.countP fun entry => isKey (p, id) entry.job := by
    rw [htracked.waits p portal hportal hfree.1]
    exact List.count_pos_iff.mpr hid
  obtain ⟨entry, hentry, hkey⟩ := List.countP_pos_iff.mp hcount
  cases hjob : entry.job with
  | none => rw [hjob] at hkey; cases hkey
  | some job =>
    rw [hjob, isKey_some] at hkey
    have hp : job.portal = p := congrArg Prod.fst hkey
    simp only [Pool.entries, hqueue, hthreads, List.map_nil, List.flatMap_nil, List.nil_append,
      List.mem_append, List.mem_flatMap, List.mem_map, List.mem_replicate] at hentry
    rcases hentry with (⟨other, hother, hmem⟩ | ⟨bytes, -, rfl⟩) | ⟨-, rfl⟩
    · simp only [Portal.entries, List.mem_append, List.mem_map] at hmem
      -- only what a portal reads has a job
      have hanswer : ∃ finished ∈ other.channel ++ other.ready, finished.job = job := by
        rcases hmem with ((hmem | ⟨finished, hmem, rfl⟩) | ⟨finished, hmem, rfl⟩) |
          ⟨completion, -, rfl⟩
        · cases hsubmission : other.submission <;> rw [hsubmission] at hmem <;>
            simp only [Submission.entries, List.mem_singleton, List.not_mem_nil] at hmem <;>
              subst hmem <;> cases hjob
        · cases hjob
          exact ⟨finished, List.mem_append_left _ hmem, rfl⟩
        · cases hjob
          exact ⟨finished, List.mem_append_right _ hmem, rfl⟩
        · cases hjob
      obtain ⟨finished, hfinished, rfl⟩ := hanswer
      obtain ⟨q, hlt, hq⟩ := List.mem_iff_getElem.mp hother
      have hother' : s.portals[q]? = some other := by rw [List.getElem?_eq_getElem hlt, hq]
      have hqp : finished.job.portal = q := hrouted q other hother' finished hfinished
      rw [← hqp, hp, hportal] at hother'
      cases hother'
      rw [hread] at hfinished
      cases hfinished
    · cases hjob
    · cases hjob

/-- **As long as a portal waits for a job, some thread can go on.** -/
theorem advance (h : Reached s) (hportal : s.portals[p]? = some portal) (hfree : portal.Free)
    {id : Nat} (hid : id ∈ portal.jobs.pending.keys) : ∃ s', Advance answer p portal s s' := by
  have htracked := h.tracked
  cases hnext : portal.next with
  | some next => exact advance_complete htracked h.routed hportal hfree hnext
  | none =>
    cases hthreads : s.threads with
    | cons worker threads => exact advance_thread htracked hportal hfree hthreads
    | nil =>
      have hqueue := waiting_in_queue htracked h.routed hportal hfree hid hnext hthreads
      have hawake := h.staffed.awake hqueue
      have hbusy := h.staffed.busy
      rw [hthreads, List.length_nil] at hbusy
      obtain ⟨checking, hchecking⟩ := Nat.exists_eq_add_one.mpr (by omega : 0 < s.checking)
      obtain ⟨job, jobs, hjobs⟩ := List.exists_cons_of_ne_nil hqueue
      refine ⟨_, .pickUp hchecking hjobs, work_of hportal hportal ?_,
        ⟨portal, hportal, hfree, rfl⟩, .inl rfl⟩
      simp only [hjobs, hthreads, List.length_cons, List.nil_append, List.map_cons, List.map_nil,
        List.sum_cons, List.sum_nil, Worker.left]
      omega

/-- **A free portal can be told every answer**, whatever the tasks reply. -/
theorem can_complete (answer : Job K → Option R) (h : Reached s)
    (hportal : s.portals[p]? = some portal) (hfree : portal.Free) :
    ∃ s' portal' ran, Relation.ReflTransGen Step s s' ∧ s'.portals[p]? = some portal' ∧
      portal'.Free ∧ portal'.accepted = portal.accepted ∧ portal'.jobs.pending.keys = [] ∧
      s'.runs = s.runs ++ ran ∧ ∀ run ∈ ran, run.2 = answer run.1 := by
  -- by induction on the work that is left
  induction hwork : s.work p using Nat.strong_induction_on generalizing s portal with
  | _ work ih =>
    cases hkeys : portal.jobs.pending.keys with
    | nil =>
      exact ⟨s, portal, [], .refl, hportal, hfree, rfl, hkeys, (List.append_nil _).symm, by simp⟩
    | cons id ids =>
      have hid : id ∈ portal.jobs.pending.keys := by
        rw [hkeys]
        exact List.mem_cons_self
      obtain ⟨next, hadvance⟩ : ∃ next, Advance answer p portal s next :=
        advance h hportal hfree hid
      obtain ⟨hstep, hless, ⟨portal', hportal', hfree', hsame⟩, hruns⟩ := hadvance
      obtain ⟨s', last, ran, hrun, hlast, hfree'', haccepted, hnone, hran, hreplies⟩ :=
        ih _ (hwork ▸ hless) (.step h hstep) hportal' hfree' rfl
      rcases hruns with hruns | ⟨job, hruns⟩
      · exact ⟨s', last, ran, .head hstep hrun, hlast, hfree'', haccepted.trans hsame, hnone,
          by rw [hran, hruns], hreplies⟩
      · refine ⟨s', last, (job, answer job) :: ran, .head hstep hrun, hlast, hfree'',
          haccepted.trans hsame, hnone, by rw [hran, hruns, List.append_assoc]; rfl, ?_⟩
        intro run hmem
        rcases List.mem_cons.mp hmem with rfl | hmem
        · rfl
        · exact hreplies run hmem

end Progress

/-! ## 5. The pool of workers -/

def Worker.leases : Worker K R → List Nat
  | picked job | running job | ran job _ | sending job _ => [job.bytes]
  | leaving => []

def Portal.leases (portal : Portal T K R) : List Nat :=
  portal.channel.map (fun finished => finished.job.bytes) ++
    portal.ready.map (fun finished => finished.job.bytes) ++
    portal.packing.map fun completion => completion.job.bytes

/-- The leases whose job is queued, with a worker, not read yet or packed. -/
def Pool.leases (s : Pool T K R) : List Nat :=
  s.queue.jobs.map Job.bytes ++ s.threads.flatMap Worker.leases ++ s.portals.flatMap Portal.leases

/-- No machine is about to submit, and no lease is about to be dropped. -/
structure Pool.Settled (s : Pool T K R) : Prop where
  submission : ∀ portal ∈ s.portals, portal.submission = .idle ∨ portal.submission = .failed
  dropping : s.dropping = []
  releasing : s.releasing = 0

section Claim

variable {s : Pool T K R}

theorem worker_leases (worker : Worker K R) : worker.entries.map Entry.bytes = worker.leases := by
  cases worker <;> rfl

theorem portal_leases {portal : Portal T K R}
    (h : portal.submission = .idle ∨ portal.submission = .failed) :
    portal.entries.map Entry.bytes = portal.leases := by
  have hnone : portal.submission.entries (K := K) (R := R) = [] := by
    rcases h with h | h <;> rw [h] <;> rfl
  simp only [Portal.entries, Portal.leases, hnone, List.nil_append, List.map_append, List.map_map]
  rfl

/-- The ledger of a settled pool is that of its leases. -/
theorem settled_leases (h : s.Settled) : s.entries.map Entry.bytes = s.leases := by
  have hportals : (s.portals.flatMap Portal.entries).map Entry.bytes =
      s.portals.flatMap Portal.leases := by
    rw [List.map_flatMap]
    exact List.flatMap_congr fun portal hmem => portal_leases (h.submission portal hmem)
  have hthreads : (s.threads.flatMap Worker.entries).map Entry.bytes =
      s.threads.flatMap (Worker.leases (R := R)) := by
    rw [List.map_flatMap]
    exact List.flatMap_congr fun worker _ => worker_leases worker
  simp only [Pool.entries, Pool.leases, h.dropping, h.releasing, List.map_append, hportals,
    hthreads, List.map_map, List.map_nil, List.append_nil, List.replicate_zero]
  rfl

theorem Tracked.runs_nodup (h : Tracked s) : (s.runs.map fun run => run.1.key).Nodup :=
  List.nodup_iff_count_le_one.mpr fun key => Nat.le_trans (Nat.le_add_right _ _) (h.once key)

/-- **The pool of workers keeps its bounds, its budget and its jobs**, in every interleaving.

There is a worker for every job that is queued or busy, or there are 64.  The counters are those of
the leases on the ledger, which are the leases that are alive when nothing is between two counters.
A job that a portal accepted is pending or completed, once, a living portal expects every answer,
and it can be told all that are pending whatever the tasks reply.  No job runs twice. -/
theorem host_worker_pool (h : Reached s) :
    (s.queue.jobs.length + s.queue.busy ≤ s.queue.workers ∨ s.queue.workers = workersLimit) ∧
    s.queue.workers ≤ workersLimit ∧
    s.budget.jobs = s.entries.length ∧ s.budget.bytes = (s.entries.map Entry.bytes).sum ∧
    s.budget.jobs ≤ arenaLimit ∧ s.budget.bytes ≤ retainedBytes ∧
    (s.Settled → s.budget.jobs = s.leases.length ∧ s.budget.bytes = s.leases.sum) ∧
    (∀ (p : Nat) (portal : Portal T K R), s.portals[p]? = some portal →
      portal.accepted.length = portal.jobs.next ∧
      (portal.jobs.pending.keys ++ portal.completed.map fun c => c.job.id).Perm
        (List.range portal.jobs.next) ∧
      (∀ completion ∈ portal.completed, completion.job.portal = p ∧
        (completion.job, completion.reply) ∈ s.runs ∧
        ∃ request, portal.accepted[completion.job.id]? = some request ∧
          completion.pending = ⟨request.continuation, request.handle⟩ ∧
          completion.job.task = request.task) ∧
      (portal.life = .alive →
        (∀ finished rest, portal.next = some (finished, rest) →
          ∃ completed, portal.jobs.completed (some finished.job.id) = .ok (some completed)) ∧
        (portal.submission = .idle → ∀ answer : Job K → Option R, ∃ s' portal' ran,
          Relation.ReflTransGen Step s s' ∧ s'.portals[p]? = some portal' ∧
          portal'.accepted = portal.accepted ∧ portal'.jobs.pending.keys = [] ∧
          s'.runs = s.runs ++ ran ∧ ∀ run ∈ ran, run.2 = answer run.1))) ∧
    (s.runs.map fun run => run.1.key).Nodup := by
  have htracked := h.tracked
  have hbudget := h.budgeted
  refine ⟨h.staffed.room, h.staffed.limit, hbudget.jobs, hbudget.bytes, hbudget.jobs_le,
    hbudget.bytes_le, fun hsettled => ?_, fun p portal hportal => ?_, htracked.runs_nodup⟩
  · have hleases := settled_leases hsettled
    exact ⟨by rw [hbudget.jobs, ← hleases, List.length_map], by rw [hbudget.bytes, hleases]⟩
  · have hsound := htracked.sound p portal hportal
    refine ⟨hsound.accepted, hsound.ids, fun completion hcompletion => ?_, fun halive => ⟨?_, ?_⟩⟩
    · obtain ⟨hp, request, haccepted, hpending, htask⟩ := hsound.completed completion hcompletion
      exact ⟨hp, htracked.completed p portal hportal completion hcompletion, request, haccepted,
        hpending, htask⟩
    · intro finished rest hnext
      obtain ⟨pending, -, hcompleted⟩ := htracked.expected h.routed hportal halive hnext
      exact ⟨_, hcompleted⟩
    · intro hidle answer
      obtain ⟨s', portal', ran, hrun, hportal', -, haccepted, hnone, hran, hreplies⟩ :=
        can_complete answer h hportal ⟨halive, hidle⟩
      exact ⟨s', portal', ran, hrun, hportal', haccepted, hnone, hran, hreplies⟩

/-- A machine whose one job of five bytes is in the queue. -/
def oneJob : Pool Nat Nat Nat :=
  ⟨⟨[⟨0, 0, 5, 7⟩], 1, 0⟩, ⟨1, 5⟩, 1, 0, [],
    [⟨⟨true, AList.insert 0 ⟨9, none⟩ ∅, 1⟩, .idle, .alive, [], [], [], [⟨7, 9, none, 5⟩], []⟩],
    [], 0, []⟩

/-- The job is in the queue, and there is a worker for it. -/
theorem host_worker_pool_one : oneJob.queue.jobs.length + oneJob.queue.busy ≤ 1 ∧
    oneJob.budget.jobs = 1 ∧ oneJob.budget.bytes = 5 :=
  have hopened := Reached.default.step .openPortal
  have hreserving := hopened.step
    (@Step.reserveJob _ _ _ _ 0 .default ⟨7, 9, none, 5⟩ _ _ rfl ⟨rfl, rfl⟩ rfl rfl)
  have hleased := hreserving.step (@Step.reserveBytes _ _ _ _ 0 _ ⟨7, 9, none, 5⟩ _ rfl rfl rfl)
  have hqueued := hleased.step (@Step.submit _ _ _ _ 0 _ ⟨7, 9, none, 5⟩ _ rfl rfl rfl)
  have hpool := host_worker_pool (hqueued : Reached oneJob)
  ⟨hpool.1.resolve_right (by decide), hpool.2.2.1, hpool.2.2.2.1⟩

end Claim

end TeamyBend.Runtime.HostPool
