/-
# Parked frames and the stack of calls

The adapters of a chain of calls are one word that does what they do one after another
(`adapted_composeMode`), and a frame that is reused is a fresh one (`reuseFrame_eq`).  The stack of
calls is taken apart (`Parked`): a frame that waits is one that is parked, and the frames in the
tail between two such frames are one adapter.
-/
import TeamyBend.Runtime.CallStack

namespace TeamyBend.Runtime.TaskRuns

open CallStack (width awaited unwind)
open Tasks (Failure Setting fidResultWidth)

variable {S : Type} {u : Program S}

/-! ## 1. Adapters -/

/-- `TB_RESULT_NONE` and the four adapters. -/
def Mode (mode : Nat) : Prop := mode = 0 ∨ mode = 1 ∨ mode = 3 ∨ mode = 5 ∨ mode = 7

/-- The adapter of a chain with one more call. -/
def composeMode (outer inner : Nat) : Nat :=
  if inner = 0 then outer
  else if outer = 0 then inner else outer &&& 3 ||| (outer ||| inner) &&& 4

/-- A packet with an adapter or without. -/
def adapted (mode : Nat) (packet : Packet) : Packet :=
  if mode = 0 then packet else adapt mode packet

theorem tbResultCompose_mode {outer inner : Nat} (houter : Mode outer) (hinner : Mode inner)
    (hne : inner ≠ 0) : tbResultCompose outer inner = .ok (composeMode outer inner) := by
  rcases hinner with rfl | rfl | rfl | rfl | rfl
  · exact absurd rfl hne
  all_goals rcases houter with rfl | rfl | rfl | rfl | rfl <;> rfl

/-- What composes is an adapter. -/
theorem mode_of_compose {outer inner mode : Nat}
    (h : tbResultCompose outer inner = .ok mode) : Mode inner := by
  have hsmall : ∀ m ≤ 7, m ≠ 0 → m &&& 1 ≠ 0 → Mode m := by
    unfold Mode
    decide
  unfold tbResultCompose at h
  split at h
  · cases h
  · rename_i hvalid
    by_cases hzero : inner = 0
    · exact .inl hzero
    · refine hsmall inner ?_ hzero ?_
      · by_contra hgt
        exact hvalid (.inr ⟨hzero, .inr (by omega)⟩)
      · intro heven
        exact hvalid (.inr ⟨hzero, .inl heven⟩)

/-- What fails without an outer adapter fails with one. -/
theorem compose_error (outer : Nat) {inner : Nat} {message : String}
    (h : tbResultCompose 0 inner = .error message) :
    inner ≠ 0 ∧ tbResultCompose outer inner = .error message := by
  unfold tbResultCompose at h ⊢
  split at h
  · rename_i hinvalid
    obtain ⟨hzero, -⟩ | hinner := hinvalid
    · exact absurd rfl hzero
    · rw [if_pos (.inr hinner)]
      exact ⟨hinner.1, h⟩
  · cases h

theorem mode_composeMode {outer inner : Nat} (houter : Mode outer) (hinner : Mode inner) :
    Mode (composeMode outer inner) := by
  rcases houter with rfl | rfl | rfl | rfl | rfl <;>
    rcases hinner with rfl | rfl | rfl | rfl | rfl <;> unfold Mode <;> decide

theorem ne_zero_of_composeMode {outer inner : Nat} (h : composeMode outer inner ≠ 0) :
    outer ≠ 0 ∨ inner ≠ 0 := by
  by_contra hnot
  obtain ⟨rfl, rfl⟩ : outer = 0 ∧ inner = 0 := by omega
  exact h rfl

/-- An adapter is applied to a packet of one word. -/
theorem applyAdapter_mode {mode : Nat} {packet : Packet} (hmode : Mode mode)
    (hcount : mode ≠ 0 → packet.count = 1) :
    applyAdapter mode packet = .ok (adapted mode packet) := by
  unfold applyAdapter adapted
  split
  · rfl
  · rename_i hne
    rw [if_neg (not_not.2 (hcount hne)), tbResultCompose_mode (.inl rfl) hmode hne]
    unfold composeMode
    rw [if_neg hne, if_pos rfl]

@[simp] theorem count_adapted (mode : Nat) (packet : Packet) :
    (adapted mode packet).count = packet.count := by
  unfold adapted adapt Packet.count
  split
  · rfl
  · dsimp only
    split
    · exact List.length_modifyHead
    · rfl

/-- **The adapter of a chain is that of the callee and then those of its callers.** -/
theorem adapted_composeMode {outer inner : Nat} (houter : Mode outer) (hinner : Mode inner)
    (packet : Packet) :
    adapted (composeMode outer inner) packet = adapted outer (adapted inner packet) := by
  obtain ⟨words, owned⟩ := packet
  rcases houter with rfl | rfl | rfl | rfl | rfl <;>
    rcases hinner with rfl | rfl | rfl | rfl | rfl <;>
    cases words <;> cases owned <;> simp [adapted, adapt, composeMode]

/-- An adapter that generated code adds to its frame is applied before those it has. -/
theorem adapted_tbTailResult {body body' : Body} {mode : Nat} (hmode : Mode body.tailResult)
    (h : tbTailResult body mode = .ok body') (packet : Packet) :
    adapted body'.tailResult packet = adapted body.tailResult (adapted mode packet) := by
  unfold tbTailResult at h
  split at h
  · cases h
  · rename_i hne
    cases hcompose : tbResultCompose body.tailResult mode with
    | error message =>
      rw [hcompose] at h
      cases h
    | ok tailResult =>
      rw [hcompose] at h
      cases h
      have hinner := mode_of_compose hcompose
      rw [tbResultCompose_mode hmode hinner (by tauto)] at hcompose
      cases hcompose
      exact adapted_composeMode hmode hinner packet

/-! ## 2. Frames -/

/-- A frame as the dispatcher keeps it. -/
structure Live (u : Program S) (frame : CallFrame) : Prop where
  saved : frame.savedResult = 0
  slots : frame.slots = u.resumeSlots frame.fid
  values : frame.values.length = frame.slots
  known : fidResultWidth u.toSetting frame.fid = .ok (width u frame.fid)
  captures : ∀ arity count, u.segment frame.fid = some (arity, count) →
    frame.captures.length = arity

theorem width_segment {fid arity count : Nat} (h : u.segment fid = some (arity, count)) :
    fidResultWidth u.toSetting fid = .ok count ∧ width u fid = count := by
  obtain ⟨happly, hemit, hlt, -⟩ := u.registered fid arity count h
  unfold fidResultWidth width
  rw [if_neg (not_or.2 ⟨happly, hemit⟩), if_neg (by omega), h]
  exact ⟨rfl, rfl⟩

/-- A closure is no segment. -/
theorem segment_none {fid : Nat} (h : (u.captures fid).isSome) : u.segment fid = none := by
  cases hsegment : u.segment fid with
  | none => rfl
  | some segment =>
    have hnone := (u.registered fid segment.1 segment.2 hsegment).2.2.2
    rw [hnone] at h
    cases h

/-- The width of resumed code is one. -/
theorem width_resume {fid : Nat} (h : (u.resumeCode fid).isSome) :
    u.segment fid = none ∧ fidResultWidth u.toSetting fid = .ok 1 ∧ width u fid = 1 := by
  obtain ⟨happly, hemit, hlt, hcaptures⟩ := u.resumable fid h
  have hsegment := segment_none hcaptures
  obtain ⟨count, hcount⟩ := Option.isSome_iff_exists.1 hcaptures
  refine ⟨hsegment, ?_, ?_⟩
  · unfold fidResultWidth
    rw [if_neg (not_or.2 ⟨happly, hemit⟩), if_neg (by omega), hsegment, hcount]
  · unfold width
    rw [hsegment]

theorem live_fresh {fid : Nat} {words : List Nat} (argument : Nat)
    (hknown : fidResultWidth u.toSetting fid = .ok (width u fid))
    (hwords : ∀ arity count, u.segment fid = some (arity, count) → words.length = arity) :
    Live u (freshFrame u fid words argument) :=
  ⟨rfl, rfl, List.length_replicate, hknown, hwords⟩

/-- A fresh frame of a segment is live. -/
theorem live_segment {fid arity count : Nat} {words : List Nat}
    (h : u.segment fid = some (arity, count)) (hwords : words.length = arity) :
    Live u (freshFrame u fid words 0) := by
  obtain ⟨hknown, hwidth⟩ := width_segment h
  refine live_fresh 0 (hwidth ▸ hknown) fun arity' count' h' => ?_
  cases h.symm.trans h'
  exact hwords

theorem live_resume {fid : Nat} (words : List Nat) (argument : Nat)
    (h : (u.resumeCode fid).isSome) : Live u (freshFrame u fid words argument) := by
  obtain ⟨hnone, hknown, hwidth⟩ := width_resume h
  refine live_fresh argument (hwidth ▸ hknown) fun arity count hsome => ?_
  cases hnone.symm.trans hsome

/-- The words of a pointer that is not null. -/
theorem length_read {span : Span} {count : Nat} (body : Body)
    (h : ¬(count ≠ 0 ∧ span = .null)) : (span.read body count).length = count := by
  cases span with
  | null =>
    obtain rfl : count = 0 := by
      by_contra hne
      exact h ⟨hne, rfl⟩
    rfl
  | captures offset => simp [Span.read]
  | values offset => simp [Span.read]
  | memory words => simp [Span.read]

theorem moveCells_of_length {words cells : List Nat} (h : words.length = cells.length) :
    moveCells words cells = words := by
  unfold moveCells
  rw [h, List.drop_length, List.append_nil]

/-- **A frame that is reused is a fresh one**, with the words that were returned. -/
theorem reuseFrame_eq {current : CallFrame} {outcome : Outcome} {count : Nat}
    (hlive : Live u current) (hwaiting : current.waiting = false)
    (hsegment : u.segment current.fid = some (outcome.count, count))
    (hwords : ¬(outcome.count ≠ 0 ∧ outcome.words = .null)) :
    reuseFrame current outcome =
      freshFrame u current.fid (outcome.words.read current.toBody outcome.count) 0 := by
  have hcaptures := moveCells_of_length ((length_read current.toBody hwords).trans
    (hlive.captures _ _ hsegment).symm)
  have hvalues := moveCells_of_length ((List.length_replicate (a := 0)).trans hlive.values.symm)
  unfold reuseFrame freshFrame
  dsimp only
  rw [hcaptures, hvalues, ← hlive.slots, hwaiting]

/-! ## 3. The stack of calls -/

/-- A frame has a destination for the words that it waits for. -/
def HasDestination (frame : CallFrame) : Prop :=
  frame.pc ≠ 0 ∧ frame.destination ≤ frame.slots ∧
    frame.expected ≤ frame.slots - frame.destination

/-- The frames that are parked, with the width that is expected and the adapter of the run, are
those of a stack. -/
inductive Parked (u : Program S) (root : Nat) :
    Nat → Nat → List CallFrame → List CallFrame → Prop
  | root : Parked u root root 0 [] []
  | tail {expected mode : Nat} {pending stack : List CallFrame} {frame : CallFrame} :
    Parked u root expected mode pending stack → Live u frame → frame.waiting = false →
    width u frame.fid = expected → Mode frame.tailResult →
    (frame.tailResult ≠ 0 → expected = 1) →
    Parked u root expected (composeMode mode frame.tailResult) pending (frame :: stack)
  | waiting {expected mode : Nat} {pending stack : List CallFrame} {frame : CallFrame} :
    Parked u root expected mode pending stack → Live u frame → frame.waiting = true →
    width u frame.fid = expected → HasDestination frame →
    Parked u root frame.expected 0 ({ frame with savedResult := mode } :: pending)
      (frame :: stack)

variable {root expected mode : Nat} {pending stack : List CallFrame}

/-- What is parked adapts by a mode, and only one word. -/
theorem Parked.adapter (h : Parked u root expected mode pending stack) :
    Mode mode ∧ (mode ≠ 0 → expected = 1) := by
  induction h with
  | root => exact ⟨.inl rfl, fun h => absurd rfl h⟩
  | tail hparked hlive hwaiting hwidth hmode hone ih =>
    refine ⟨mode_composeMode ih.1 hmode, fun hne => ?_⟩
    obtain houter | hinner := ne_zero_of_composeMode hne
    · exact ih.2 houter
    · exact hone hinner
  | waiting => exact ⟨.inl rfl, fun h => absurd rfl h⟩

theorem Parked.awaited_eq (h : Parked u root expected mode pending stack) :
    awaited u root stack = expected := by
  cases h with
  | root => rfl
  | tail hparked hlive hwaiting hwidth => simp [awaited, hwaiting, hwidth]
  | waiting hparked hlive hwaiting => simp [awaited, hwaiting]

/-- What a stack is under the calls in its tail. -/
inductive Base (u : Program S) (root : Nat) : Nat → List CallFrame → List CallFrame → Prop
  | root : Base u root root [] []
  | waiting {expected mode : Nat} {pending stack : List CallFrame} {frame : CallFrame} :
    Parked u root expected mode pending stack → Live u frame → frame.waiting = true →
    width u frame.fid = expected → HasDestination frame →
    Base u root frame.expected ({ frame with savedResult := mode } :: pending) (frame :: stack)

/-- **A packet goes down the calls in the tail as through their adapter.** -/
theorem Parked.unwind_eq (h : Parked u root expected mode pending stack) :
    ∃ base, Base u root expected pending base ∧ ∀ packet, packet.count = expected →
      unwind u root packet stack = unwind u root (adapted mode packet) base := by
  induction h with
  | root => exact ⟨[], .root, fun packet hcount => rfl⟩
  | @tail expected mode pending stack frame hparked hlive hwaiting hwidth hmode hone ih =>
    obtain ⟨base, hbase, hunwind⟩ := ih
    refine ⟨base, hbase, fun packet hcount => ?_⟩
    have hawaited : awaited u root (frame :: stack) = expected := by
      simp [awaited, hwaiting, hwidth]
    have hadapter := applyAdapter_mode hmode fun hne => hcount.trans (hone hne)
    rw [adapted_composeMode hparked.adapter.1 hmode,
      ← hunwind _ ((count_adapted _ _).trans hcount), unwind, hawaited,
      if_neg (not_not.2 hcount), hwaiting, hadapter]
    rfl
  | @waiting expected mode pending stack frame hparked hlive hwaiting hwidth hdestination =>
    exact ⟨frame :: stack, .waiting hparked hlive hwaiting hwidth hdestination,
      fun packet hcount => rfl⟩

theorem unwind_mismatch {packet : Packet} (h : packet.count ≠ awaited u root stack) :
    unwind u root packet stack = .error "task result width mismatch" := by
  cases stack with
  | nil => exact if_pos h
  | cons frame rest => exact if_pos h

end TeamyBend.Runtime.TaskRuns
