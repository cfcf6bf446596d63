/-
# Bounded channels with waiting parties, call by call

A channel holds at most `room` buffered payloads.  A sender that finds no room waits with its
payload, a receiver that finds nothing waits, and closing answers everyone who waits.  The calls
of one run are numbered, and the model names a payload by the number of the call that sent it
and a waiting party by the number of its call.  So one payload is never taken for another, even
when the callers send equal values.

`Step` is the transition relation on a table of channels: every call happens at one moment, and
its `Label` says what it answered and whom it woke.  `History` collects, for one handle, what the
labels say.  `Good` is the invariant of a channel together with its history: what was delivered,
followed by what is buffered, followed by what waits, is in the order of the send calls.
`Run.good` carries it along every run, for every interleaving.

How a table stores its channels, when a handle is used again and what a payload is are left
open.
-/
import Mathlib.Data.List.Nodup
import Mathlib.Data.List.Pairwise
import Mathlib.Tactic.Common

namespace BoundedChannel

/-! ## 1. Channels and steps -/

/-- A channel, with payloads and waiting parties named by their calls. -/
structure Chan where
  room : Nat
  closed : Bool
  buffer : List Nat
  senders : List Nat
  receivers : List Nat

/-- What one call did. -/
inductive Label (H : Type) where
  /-- a channel was opened -/
  | opened (h : H)
  /-- the call failed and changed nothing -/
  | refused
  /-- a send was answered no: the handle is not open -/
  | rejected (h : H)
  /-- a send was answered yes, its payload going to the waiting call `r` -/
  | handed (h : H) (r : Nat)
  /-- a send was answered yes and its payload buffered -/
  | buffered (h : H)
  /-- a send waits -/
  | sendParked (h : H)
  /-- a receive was answered with nothing -/
  | drained (h : H)
  /-- a receive got payload `p`, and the waiting send `s` was answered yes -/
  | took (h : H) (p : Nat) (s : Option Nat)
  /-- a receive waits -/
  | recvParked (h : H)
  /-- the channel was closed: waiting sends were answered no and waiting receives got nothing -/
  | closed (h : H) (ss rs : List Nat)

/-- The handle a call was about. -/
def Label.on {H : Type} : Label H → Option H
  | opened h | rejected h | handed h _ | buffered h | sendParked h | drained h | took h _ _
  | recvParked h | closed h _ _ => some h
  | refused => none

variable {H : Type}

/-- A table gives each open handle its channel. -/
abbrev Table (H : Type) := H → Option Chan

/-- The channel left after a receive or a close: gone once it is closed and empty. -/
def retire (c : Chan) : Option Chan :=
  if c.closed = true ∧ c.buffer = [] then none else some c

/-- How call number `n` about handle `h` moves that handle's channel.  Only one side ever waits:
receivers on an open channel with nothing buffered, senders on an open channel without room. -/
inductive ChanStep (n : Nat) (h : H) : Option Chan → Label H → Option Chan → Prop where
  | rejected {c : Option Chan} (hc : ∀ d, c = some d → d.closed = true) :
      ChanStep n h c (.rejected h) c
  | handed {room r : Nat} {rs : List Nat} :
      ChanStep n h (some ⟨room, false, [], [], r :: rs⟩) (.handed h r)
        (some ⟨room, false, [], [], rs⟩)
  | buffered {room : Nat} {b : List Nat} (hroom : b.length < room) :
      ChanStep n h (some ⟨room, false, b, [], []⟩) (.buffered h)
        (some ⟨room, false, b ++ [n], [], []⟩)
  | sendParked {room : Nat} {b ss : List Nat} (hroom : b.length = room) :
      ChanStep n h (some ⟨room, false, b, ss, []⟩) (.sendParked h)
        (some ⟨room, false, b, ss ++ [n], []⟩)
  | stale : ChanStep n h none (.drained h) none
  | took {room p : Nat} {closed : Bool} {b : List Nat} :
      ChanStep n h (some ⟨room, closed, p :: b, [], []⟩) (.took h p none)
        (retire ⟨room, closed, b, [], []⟩)
  | refilled {room p s : Nat} {b ss : List Nat} :
      ChanStep n h (some ⟨room, false, p :: b, s :: ss, []⟩) (.took h p (some s))
        (some ⟨room, false, b ++ [s], ss, []⟩)
  | direct {room s : Nat} {ss : List Nat} :
      ChanStep n h (some ⟨room, false, [], s :: ss, []⟩) (.took h s (some s))
        (some ⟨room, false, [], ss, []⟩)
  | recvParked {room : Nat} {rs : List Nat} :
      ChanStep n h (some ⟨room, false, [], [], rs⟩) (.recvParked h)
        (some ⟨room, false, [], [], rs ++ [n]⟩)
  | closed {room : Nat} {b ss rs : List Nat} :
      ChanStep n h (some ⟨room, false, b, ss, rs⟩) (.closed h ss rs)
        (retire ⟨room, true, b, [], []⟩)
  | closedAgain {c : Option Chan} (hc : ∀ d, c = some d → d.closed = true) :
      ChanStep n h c (.closed h [] []) c

/-- Call number `n` moves the table: at one handle, and nowhere else. -/
inductive Step (n : Nat) (t t' : Table H) : Label H → Prop where
  | opened {h : H} {room : Nat} (hnone : t h = none) (hat : t' h = some ⟨room, false, [], [], []⟩)
      (hother : ∀ k, k ≠ h → t' k = t k) : Step n t t' (.opened h)
  | refused (hsame : ∀ k, t' k = t k) : Step n t t' .refused
  | call {h : H} {l : Label H} (hcall : ChanStep n h (t h) l (t' h))
      (hother : ∀ k, k ≠ h → t' k = t k) : Step n t t' l

/-- The labels of a run from the table without channels, the latest first. -/
inductive Run : Table H → List (Label H) → Prop where
  | empty : Run (fun _ => none) []
  | step {t t' : Table H} {log : List (Label H)} {l : Label H} (hrun : Run t log)
      (hstep : Step log.length t t' l) : Run t' (l :: log)

/-! ## 2. What happened at one handle -/

/-- The history of one handle, each list in the order of the events. -/
structure History where
  /-- the payloads handed out, each with the receive that got it -/
  deliveries : List (Nat × Nat)
  /-- the answers to sends -/
  answers : List (Nat × Bool)
  /-- the calls answered by a later one -/
  woken : List Nat
  /-- the calls that had to wait -/
  parked : List Nat
  sends : List Nat
  recvs : List Nat

/-- Nothing happened. -/
def History.empty : History := ⟨[], [], [], [], [], []⟩

/-- Add what call number `n` did. -/
def History.record (g : History) (n : Nat) : Label H → History
  | .opened _ | .refused => g
  | .rejected _ => { g with answers := g.answers ++ [(n, false)], sends := g.sends ++ [n] }
  | .handed _ r =>
    { g with
      deliveries := g.deliveries ++ [(n, r)], answers := g.answers ++ [(n, true)]
      woken := g.woken ++ [r], sends := g.sends ++ [n] }
  | .buffered _ => { g with answers := g.answers ++ [(n, true)], sends := g.sends ++ [n] }
  | .sendParked _ => { g with parked := g.parked ++ [n], sends := g.sends ++ [n] }
  | .drained _ => { g with recvs := g.recvs ++ [n] }
  | .took _ p s =>
    { g with
      deliveries := g.deliveries ++ [(p, n)], recvs := g.recvs ++ [n]
      answers := g.answers ++ s.toList.map (·, true), woken := g.woken ++ s.toList }
  | .recvParked _ => { g with parked := g.parked ++ [n], recvs := g.recvs ++ [n] }
  | .closed _ ss rs =>
    { g with
      answers := g.answers ++ ss.map (·, false), woken := g.woken ++ (ss ++ rs) }

section History

variable [DecidableEq H]

/-- The history of handle `h` in a log. -/
def history (h : H) : List (Label H) → History
  | [] => .empty
  | l :: log => if l.on = some h then (history h log).record log.length l else history h log

end History

/-! ## 3. The invariant -/

/-- The payloads a channel owes, in order: what is buffered and then what waits. -/
def pending : Option Chan → List Nat
  | none => []
  | some c => c.buffer ++ c.senders

/-- What is buffered. -/
def inBuffer : Option Chan → List Nat
  | none => []
  | some c => c.buffer

/-- The calls that wait to receive. -/
def waitingRecvs : Option Chan → List Nat
  | none => []
  | some c => c.receivers

/-- The calls that wait. -/
def waiting : Option Chan → List Nat
  | none => []
  | some c => c.senders ++ c.receivers

@[simp] theorem pending_none : pending none = [] := rfl

@[simp] theorem pending_some (c : Chan) : pending (some c) = c.buffer ++ c.senders := rfl

@[simp] theorem inBuffer_none : inBuffer none = [] := rfl

@[simp] theorem inBuffer_some (c : Chan) : inBuffer (some c) = c.buffer := rfl

@[simp] theorem waitingRecvs_none : waitingRecvs none = [] := rfl

@[simp] theorem waitingRecvs_some (c : Chan) : waitingRecvs (some c) = c.receivers := rfl

@[simp] theorem waiting_none : waiting none = [] := rfl

@[simp] theorem waiting_some (c : Chan) : waiting (some c) = c.senders ++ c.receivers := rfl

/-- Everything sent and not refused, in the order it leaves. -/
def sentList (g : History) (c : Option Chan) : List Nat :=
  g.deliveries.map Prod.fst ++ pending c

/-- The sends whose payload is out or buffered. -/
def yesList (g : History) (c : Option Chan) : List Nat :=
  g.deliveries.map Prod.fst ++ inBuffer c

/-- The receives that got a payload or wait for one. -/
def recvList (g : History) (c : Option Chan) : List Nat :=
  g.deliveries.map Prod.snd ++ waitingRecvs c

/-- The calls that were woken or still wait. -/
def callers (g : History) (c : Option Chan) : List Nat := g.woken ++ waiting c

/-- A channel agrees with its history before call number `n`. -/
structure Good (n : Nat) (g : History) (c : Option Chan) : Prop where
  /-- payloads leave, and will leave, in the order of their sends -/
  order : (sentList g c).Pairwise (· < ·)
  sent : ∀ i ∈ sentList g c, i ∈ g.sends
  /-- each receive gets one payload at most -/
  recvs : (recvList g c).Nodup
  received : ∀ j ∈ recvList g c, j ∈ g.recvs
  /-- a send is answered yes just when its payload is out or buffered -/
  yes : ∀ i, (i, true) ∈ g.answers ↔ i ∈ yesList g c
  no : ∀ i, (i, false) ∈ g.answers → i ∈ g.sends ∧ i ∉ sentList g c
  /-- nobody is woken twice, and nobody who still waits was woken -/
  woken : (callers g c).Nodup
  parked : ∀ j ∈ callers g c, j ∈ g.parked
  called : ∀ j ∈ g.sends ++ g.recvs ++ g.parked, j < n

/-- The invariant of a handle that was never given out. -/
theorem good_empty (n : Nat) : Good n .empty none := by
  constructor <;>
    simp [History.empty, sentList, yesList, recvList, callers, pending, inBuffer, waitingRecvs,
      waiting]

theorem Good.mono {n m : Nat} {g : History} {c : Option Chan} (h : Good n g c) (hm : n ≤ m) :
    Good m g c :=
  { h with called := fun j hj => Nat.lt_of_lt_of_le (h.called j hj) hm }

theorem Good.sends_lt {n : Nat} {g : History} {c : Option Chan} (h : Good n g c) {i : Nat}
    (hi : i ∈ g.sends) : i < n := h.called i (by simp [hi])

theorem Good.recvs_lt {n : Nat} {g : History} {c : Option Chan} (h : Good n g c) {i : Nat}
    (hi : i ∈ g.recvs) : i < n := h.called i (by simp [hi])

theorem Good.parked_lt {n : Nat} {g : History} {c : Option Chan} (h : Good n g c) {i : Nat}
    (hi : i ∈ g.parked) : i < n := h.called i (by simp [hi])

/-! ### What a call adds to each list -/

/-- A list loses entries, or gains the current call at its end, which `calls` then knows. -/
def Grows (n : Nat) (calls xs ys : List Nat) : Prop :=
  ys.Sublist xs ∨ ys = xs ++ [n] ∧ n ∈ calls

/-- A list that grows by the newest call stays in order. -/
theorem Grows.pairwise {n : Nat} {calls xs ys : List Nat} (h : Grows n calls xs ys)
    (hxs : xs.Pairwise (· < ·)) (hn : ∀ i ∈ xs, i < n) : ys.Pairwise (· < ·) := by
  rcases h with h | ⟨rfl, -⟩
  · exact hxs.sublist h
  · rw [List.pairwise_append]
    exact ⟨hxs, List.pairwise_singleton .., by simpa using hn⟩

/-- A list that grows by the newest call repeats nothing. -/
theorem Grows.nodup {n : Nat} {calls xs ys : List Nat} (h : Grows n calls xs ys)
    (hxs : xs.Nodup) (hn : ∀ i ∈ xs, i < n) : ys.Nodup := by
  rcases h with h | ⟨rfl, -⟩
  · exact hxs.sublist h
  · rw [← List.concat_eq_append]
    exact hxs.concat fun hi => Nat.lt_irrefl n (hn n hi)

/-- A list that grows holds recorded calls only. -/
theorem Grows.mem {n : Nat} {calls calls' xs ys : List Nat} (h : Grows n calls' xs ys)
    (hxs : ∀ i ∈ xs, i ∈ calls) (hsub : calls ⊆ calls') : ∀ i ∈ ys, i ∈ calls' := by
  intro i hi
  rcases h with h | ⟨rfl, hn⟩
  · exact hsub (hxs i (h.subset hi))
  · rcases List.mem_append.mp hi with hi | hi
    · exact hsub (hxs i hi)
    · rwa [List.mem_singleton.mp hi]

/-- Whatever is not the newest call was in the list before. -/
theorem Grows.old {n : Nat} {calls xs ys : List Nat} (h : Grows n calls xs ys) {i : Nat}
    (hi : i ∈ ys) (hn : i ≠ n) : i ∈ xs := by
  rcases h with h | ⟨rfl, -⟩
  · exact h.subset hi
  · simpa [hn] using hi

/-- A channel that goes once it is closed and empty still shows what it had. -/
@[simp] theorem pending_retire (room : Nat) (closed : Bool) (b : List Nat) :
    pending (retire ⟨room, closed, b, [], []⟩) = b := by
  by_cases h : closed = true ∧ b = []
  · simp [retire, h, pending]
  · simp [retire, h, pending]

@[simp] theorem inBuffer_retire (room : Nat) (closed : Bool) (b : List Nat) :
    inBuffer (retire ⟨room, closed, b, [], []⟩) = b := by
  by_cases h : closed = true ∧ b = []
  · simp [retire, h, inBuffer]
  · simp [retire, h, inBuffer]

@[simp] theorem waitingRecvs_retire (room : Nat) (closed : Bool) (b : List Nat) :
    waitingRecvs (retire ⟨room, closed, b, [], []⟩) = [] := by
  by_cases h : closed = true ∧ b = []
  · simp [retire, h, waitingRecvs]
  · simp [retire, h, waitingRecvs]

@[simp] theorem waiting_retire (room : Nat) (closed : Bool) (b : List Nat) :
    waiting (retire ⟨room, closed, b, [], []⟩) = [] := by
  by_cases h : closed = true ∧ b = []
  · simp [retire, h, waiting]
  · simp [retire, h, waiting]

section Effect

variable {n : Nat} {h : H} {g : History} {c c' : Option Chan} {l : Label H}

/-- A step sends the newest call at most. -/
theorem ChanStep.sentList_grows (hstep : ChanStep n h c l c') :
    Grows n (g.record n l).sends (sentList g c) (sentList (g.record n l) c') := by
  cases hstep <;> simp [Grows, sentList, History.record]

/-- A step receives for the newest call at most. -/
theorem ChanStep.recvList_grows (hstep : ChanStep n h c l c') :
    Grows n (g.record n l).recvs (recvList g c) (recvList (g.record n l) c') := by
  cases hstep <;> simp [Grows, recvList, History.record]

/-- A step parks the newest call at most. -/
theorem ChanStep.callers_grows (hstep : ChanStep n h c l c') :
    Grows n (g.record n l).parked (callers g c) (callers (g.record n l) c') := by
  cases hstep <;> simp [Grows, callers, History.record]

/-- The calls known so far stay known. -/
theorem record_subset (g : History) (n : Nat) (l : Label H) :
    g.sends ⊆ (g.record n l).sends ∧ g.recvs ⊆ (g.record n l).recvs ∧
      g.parked ⊆ (g.record n l).parked := by
  cases l <;> simp [History.record]

/-- Only the current call is added to the known ones. -/
theorem mem_record {g : History} {n : Nat} {l : Label H} {j : Nat}
    (hj : j ∈ (g.record n l).sends ++ (g.record n l).recvs ++ (g.record n l).parked) :
    j ∈ g.sends ++ g.recvs ++ g.parked ∨ j = n := by
  cases l <;> simp [History.record] at hj ⊢ <;> tauto

/-- **A send is answered yes just when its payload is out or buffered**, and stays so. -/
theorem ChanStep.yes (hstep : ChanStep n h c l c')
    (hyes : ∀ i, (i, true) ∈ g.answers ↔ i ∈ yesList g c) (i : Nat) :
    (i, true) ∈ (g.record n l).answers ↔ i ∈ yesList (g.record n l) c' := by
  have := hyes i
  cases hstep <;>
    simp_all [yesList, History.record, or_assoc]

/-- **A send is answered no only when its payload is nowhere**, and it stays nowhere. -/
theorem ChanStep.no (hstep : ChanStep n h c l c') (hg : Good n g c) {i : Nat}
    (hi : (i, false) ∈ (g.record n l).answers) :
    i ∈ (g.record n l).sends ∧ i ∉ sentList (g.record n l) c' := by
  by_cases hold : (i, false) ∈ g.answers
  · have ⟨hsent, hnot⟩ := hg.no i hold
    refine ⟨(record_subset g n l).1 hsent, fun hm => hnot ?_⟩
    exact hstep.sentList_grows.old hm (Nat.ne_of_lt (hg.sends_lt hsent))
  · cases hstep with
    | rejected hc =>
      have hin : i = n := by simpa [History.record, hold] using hi
      subst hin
      refine ⟨by simp [History.record], fun hm => ?_⟩
      exact Nat.lt_irrefl i (hg.sends_lt (hg.sent i hm))
    | @closed room b ss rs =>
      have his : i ∈ ss := by simpa [History.record, hold] using hi
      have horder := hg.order
      rw [sentList, pending_some, ← List.append_assoc, List.pairwise_append] at horder
      refine ⟨hg.sent i (by simp [sentList, his]), fun hm => ?_⟩
      refine Nat.lt_irrefl i (horder.2.2 i ?_ i his)
      simpa [sentList, History.record] using hm
    | _ => exact absurd (by simpa [History.record] using hi) hold

/-- **One call keeps a channel in agreement with its history.** -/
theorem ChanStep.good (hstep : ChanStep n h c l c') (hg : Good n g c) :
    Good (n + 1) (g.record n l) c' := by
  have ⟨hs, hr, hp⟩ := record_subset g n l
  exact
    { order := hstep.sentList_grows.pairwise hg.order fun i hi => hg.sends_lt (hg.sent i hi)
      sent := hstep.sentList_grows.mem hg.sent hs
      recvs := hstep.recvList_grows.nodup hg.recvs fun i hi => hg.recvs_lt (hg.received i hi)
      received := hstep.recvList_grows.mem hg.received hr
      yes := hstep.yes hg.yes
      no := fun _ hi => hstep.no hg hi
      woken := hstep.callers_grows.nodup hg.woken fun i hi => hg.parked_lt (hg.parked i hi)
      parked := hstep.callers_grows.mem hg.parked hp
      called := fun j hj => by
        rcases mem_record hj with hj | rfl
        · exact Nat.lt_succ_of_lt (hg.called j hj)
        · exact Nat.lt_succ_self j }

end Effect

/-! ## 4. Runs -/

section Run

variable [DecidableEq H]

omit [DecidableEq H] in
/-- A step about `h` is recorded at `h` and nowhere else. -/
theorem ChanStep.on {n : Nat} {h : H} {c c' : Option Chan} {l : Label H}
    (hstep : ChanStep n h c l c') : l.on = some h := by
  cases hstep <;> rfl

/-- **Every handle's channel agrees with its history in every run.** -/
theorem Run.good {t : Table H} {log : List (Label H)} (hrun : Run t log) (h : H) :
    Good log.length (history h log) (t h) := by
  induction hrun with
  | empty => exact good_empty 0
  | @step t t' log l _ hstep ih =>
    cases hstep with
    | @opened k room hnone hat hother =>
      have hhist : history h (.opened k :: log) = history h log := by
        simp [history, History.record]
      rw [hhist]
      by_cases hk : h = k
      · -- a new channel owes nothing and nobody waits on it
        subst hk
        rw [hnone] at ih
        rw [hat]
        exact (show Good log.length (history h log) (some ⟨room, false, [], [], []⟩) from
          ⟨ih.order, ih.sent, ih.recvs, ih.received, ih.yes, ih.no, ih.woken, ih.parked,
            ih.called⟩).mono (Nat.le_succ _)
      · rw [hother h hk]
        exact ih.mono (Nat.le_succ _)
    | refused hsame =>
      rw [hsame]
      exact ih.mono (Nat.le_succ _)
    | @call k _ hcall hother =>
      rw [history, hcall.on]
      by_cases hk : k = h
      · subst hk
        rw [if_pos rfl]
        exact hcall.good ih
      · rw [if_neg (by simpa using hk), hother h (Ne.symm hk)]
        exact ih.mono (Nat.le_succ _)

omit [DecidableEq H] in
/-- A step on a channel opens none. -/
theorem ChanStep.ne_opened {n : Nat} {h k : H} {c c' : Option Chan} {l : Label H}
    (hstep : ChanStep n h c l c') : l ≠ .opened k := by
  cases hstep <;> simp

omit [DecidableEq H] in
/-- Only a close ends an open channel. -/
theorem ChanStep.stays_open {n : Nat} {h : H} {c c' : Option Chan} {l : Label H}
    (hstep : ChanStep n h c l c') {d : Chan} (hc : c = some d) (hd : d.closed = false) :
    (∃ ss rs, l = .closed h ss rs) ∨ ∃ d', c' = some d' ∧ d'.closed = false := by
  subst hc
  cases hstep with
  | closed => exact .inl ⟨_, _, rfl⟩
  | closedAgain => exact .inl ⟨_, _, rfl⟩
  | took =>
    refine .inr ⟨_, if_neg ?_, hd⟩
    rintro ⟨hclosed, -⟩
    exact Bool.false_ne_true (hd.symm.trans hclosed)
  | _ => exact .inr ⟨_, rfl, hd⟩

omit [DecidableEq H] in
/-- **A channel that was opened is open until it is closed**, and then stays closed. -/
theorem Run.open_or_closed {t : Table H} {log : List (Label H)} (hrun : Run t log) {h : H}
    {later earlier : List (Label H)} (hlog : log = later ++ .opened h :: earlier) :
    (∃ d, t h = some d ∧ d.closed = false) ∨ ∃ ss rs, .closed h ss rs ∈ later := by
  induction hrun generalizing later with
  | empty => simp at hlog
  | @step t t' log l _ hstep ih =>
    cases later with
    | nil =>
      obtain ⟨rfl, rfl⟩ : l = .opened h ∧ log = earlier := by simpa using hlog
      cases hstep with
      | opened _ hat _ => exact .inl ⟨_, hat, rfl⟩
      | call hcall _ => exact absurd rfl hcall.ne_opened
    | cons l' later =>
      obtain ⟨rfl, rfl⟩ : l = l' ∧ log = later ++ .opened h :: earlier := by simpa using hlog
      rcases ih rfl with ⟨d, hd, hopen⟩ | ⟨ss, rs, hclosed⟩
      · have hold : t' h = t h → (∃ d, t' h = some d ∧ d.closed = false) ∨
            ∃ ss rs, .closed h ss rs ∈ l :: later := fun heq => .inl ⟨d, heq.trans hd, hopen⟩
        cases hstep with
        | @opened k room hnone hat hother =>
          have hk : h ≠ k := by
            rintro rfl
            simp [hnone] at hd
          exact hold (hother h hk)
        | refused hsame => exact hold (hsame h)
        | @call k _ hcall hother =>
          by_cases hk : h = k
          · subst hk
            rcases hcall.stays_open hd hopen with ⟨ss, rs, rfl⟩ | hstill
            · exact .inr ⟨ss, rs, List.mem_cons_self ..⟩
            · exact .inl hstill
          · exact hold (hother h hk)
      · exact .inr ⟨ss, rs, List.mem_cons_of_mem _ hclosed⟩

end Run

end BoundedChannel
