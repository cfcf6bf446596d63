/-
# A run keeps to the stack of its calls

The run of a task reuses and frees the frames of calls in the tail and keeps one adapter for all of
them.  It ends as the run with a frame for each call does (`execute_transparent`): with the same
packet or the same error, unless the number of frames is exhausted or memory for one is refused.
-/
import TeamyBend.Library.Mirrors
import TeamyBend.Runtime.ParkedFrames

namespace TeamyBend.Runtime.TaskRuns

open Library (Finishes Mirrors)
open CallStack (width awaited unwind)
open Tasks (Failure fidArity)

variable {S : Type} {u : Program S} {root expected mode : Nat} {pending stack : List CallFrame}

/-! ## 1. What the dispatchers have in common -/

variable {α β : Type}

/-- Where the stack of calls goes on, a run may have come to the limit of frames, or have been
refused the memory for one. -/
def Excused (u : Program S) (failure : Failure) (s : State S) : Prop :=
  (failure = continuationBudget ∧
    (s.continuations = 2 ^ 32 - 1 ∨ u.maxContinuations ≤ s.continuations)) ∨
  (failure = memoryBudget ∧
    ∃ request, s.requests = request + 1 ∧ u.allocatesFrame request = false)

theorem onWorld_mirrors (m : W S α) (s : State S) :
    Mirrors (Excused u) (onWorld m) m s s.world fun a s' b w' =>
      a = b ∧ s' = { s with world := w' } ∧ m s.world = .ok b w' := by
  cases hrun : m s.world with
  | ok a w' =>
    have honWorld : onWorld m s = .ok a { s with world := w' } := by
      unfold onWorld
      rw [hrun]
    exact .ok honWorld hrun ⟨rfl, rfl, rfl⟩
  | error failure w' =>
    have honWorld : onWorld m s = .error failure { s with world := w' } := by
      unfold onWorld
      rw [hrun]
    exact .error honWorld hrun

theorem check_mirrors {σ τ : Type} {give : Failure → σ → Prop} (e : Except String α) (s : σ)
    (t : τ) :
    Mirrors give (check e) (check e) s t fun a s' b t' =>
      a = b ∧ s' = s ∧ t' = t ∧ e = .ok b := by
  cases e with
  | ok a => exact .pure ⟨rfl, rfl, rfl, rfl⟩
  | error message => exact .throw _

/-- A step of the world in both. -/
theorem world_bind {m : W S α} {f : α → F S β} {γ : Type} {f' : α → W S γ} {s : State S}
    {w : World S} {Q : β → State S → γ → World S → Prop} (hs : s.world = w)
    (h : ∀ a w', m w = .ok a w' → Mirrors (Excused u) (f a) (f' a) { s with world := w' } w' Q) :
    Mirrors (Excused u) (onWorld m >>= f) (m >>= f') s w Q := by
  subst hs
  refine Mirrors.bind (onWorld_mirrors m s) ?_
  rintro a s' b w' ⟨rfl, rfl, hrun⟩
  exact h a w' hrun

/-- A check in both. -/
theorem check_bind {e : Except String α} {f : α → F S β} {γ : Type} {f' : α → W S γ}
    {s : State S} {w : World S} {Q : β → State S → γ → World S → Prop}
    (h : ∀ a, e = .ok a → Mirrors (Excused u) (f a) (f' a) s w Q) :
    Mirrors (Excused u) (check e >>= f) (check e >>= f') s w Q := by
  refine Mirrors.bind (check_mirrors e s w) ?_
  rintro a s' b w' ⟨rfl, rfl, rfl, hrun⟩
  exact h a hrun

theorem check_ok {σ : Type} {e : Except String α} {a : α} (h : e = .ok a) :
    (check e : EStateM Failure σ α) = pure a := by
  rw [h]
  rfl

/-- A request for the memory of a frame leaves the world and the number of frames as they are. -/
theorem frameMem_finishes (s : State S) :
    Finishes (frameMem u) s
      (fun _ s' => s'.world = s.world ∧ s'.continuations = s.continuations) (Excused u) := by
  unfold frameMem
  refine .get_bind (.modify_bind (.ite (fun _ => .pure ⟨rfl, rfl⟩) fun hrefused => .throw ?_))
  exact .inr ⟨rfl, s.requests, rfl, by simpa using hrefused⟩

theorem cellsMem_finishes (count : Nat) (s : State S) :
    Finishes (cellsMem u count) s
      (fun _ s' => s'.world = s.world ∧ s'.continuations = s.continuations) (Excused u) :=
  .ite (fun _ => .pure ⟨rfl, rfl⟩) fun _ => frameMem_finishes s

/-- A frame is made and counted, unless the limit is reached or its memory is refused. -/
theorem tbCallFrameOwned_finishes (fid : Nat) (captures : List Nat) (argument : Nat)
    (s : State S) :
    Finishes (tbCallFrameOwned u fid captures argument) s
      (fun frame s' => frame = freshFrame u fid captures argument ∧ s'.world = s.world ∧
        s'.continuations = s.continuations + 1)
      (Excused u) := by
  unfold tbCallFrameOwned
  refine .get_bind (.ite (fun hlimit => .throw (.inl ⟨rfl, hlimit⟩)) fun _ => ?_)
  refine .modify_bind (.bind (frameMem_finishes _) ?_)
  rintro _ s₁ ⟨hworld₁, hcount₁⟩
  refine .bind (cellsMem_finishes _ _) ?_
  rintro _ s₂ ⟨hworld₂, hcount₂⟩
  exact .pure ⟨rfl, hworld₂.trans hworld₁, hcount₂.trans hcount₁⟩

theorem tbCallFrameFree_finishes {s : State S} (h : s.continuations ≠ 0) :
    Finishes (tbCallFrameFree : F S Unit) s
      (fun _ s' => s' = { s with continuations := s.continuations - 1 }) (Excused u) := by
  unfold tbCallFrameFree
  exact .get_bind (.ite (fun hzero => absurd hzero h) fun _ => .of_modify rfl)

/-! ## 2. The relation between the two runs -/

/-- The frame that a run holds besides those that are parked. -/
def Control.held : Control → Nat
  | .frame _ => 1
  | _ => 0

/-- What a run does next gives as many words as are expected. -/
def Control.Suits (u : Program S) (expected : Nat) : Control → Prop
  | .value _ => True
  | .frame current => Live u current ∧ width u current.fid = expected
  | .direct _ _ _ => expected = 1
  | .apply _ _ => True

/-- A run of both kinds; `others` is the number of frames that other runs hold. -/
structure Related (u : Program S) (root others : Nat) (control : Control) (run : Run)
    (stack : List CallFrame) (s : State S) (w : World S) : Prop where
  parked : Parked u root run.expected run.tailResult run.pending stack
  suits : control.Suits u run.expected
  world : s.world = w
  count : s.continuations = others + control.held + run.pending.length

/-- The ends of an iteration. -/
inductive Stepped (u : Program S) (root others : Nat) :
    Step → State S → CallStack.Step → World S → Prop
  | again {control : Control} {run : Run} {stack : List CallFrame} {s : State S} {w : World S} :
    Related u root others control run stack s w →
    Stepped u root others (.again control run) s (.again control stack) w
  | finish {packet : Packet} {s : State S} {w : World S} :
    s.world = w → s.continuations = others →
    Stepped u root others (.finish packet) s (.finish packet) w
  | graph {term : Nat} {run : Run} {stack : List CallFrame} {s : State S} {w : World S} :
    Parked u root run.expected run.tailResult run.pending stack → s.world = w →
    s.continuations = others + run.pending.length →
    Stepped u root others (.graph term run) s (.graph term stack) w

variable {others : Nat} {run : Run} {s : State S} {w : World S}

/-- A frame that goes on is live. -/
theorem live_resumed {current resumed : CallFrame} {packet : Packet} (hlive : Live u current)
    (h : resumeFrame current packet = .ok resumed) :
    Live u resumed ∧ resumed.fid = current.fid := by
  unfold resumeFrame at h
  split at h
  · cases h
  · rename_i hvalid
    cases h
    have hvalues := hlive.values
    refine ⟨⟨hlive.saved, hlive.slots, ?_, hlive.known, hlive.captures⟩, rfl⟩
    have hcount : packet.words.length = packet.count := rfl
    dsimp only
    unfold moveCells
    rw [List.length_append, List.length_append, List.length_take, List.length_drop,
      List.length_drop]
    omega

/-- The frame that was parked is resumed as that of the stack. -/
theorem resumeFrame_saved {current resumed : CallFrame} {packet : Packet} (saved : Nat)
    (hlive : Live u current) (h : resumeFrame current packet = .ok resumed) :
    ∃ resumed', resumeFrame { current with savedResult := saved } packet = .ok resumed' ∧
      { resumed' with savedResult := 0 } = resumed := by
  unfold resumeFrame at h ⊢
  split at h
  · cases h
  · rename_i hvalid
    cases h
    refine ⟨_, if_neg hvalid, ?_⟩
    have hsaved := hlive.saved
    cases current
    dsimp only at hsaved ⊢
    rw [hsaved]

theorem resumeFrame_ok {current : CallFrame} {packet : Packet} (hwaiting : current.waiting = true)
    (hdestination : HasDestination current) (hcount : packet.count = current.expected) :
    ∃ resumed, resumeFrame current packet = .ok resumed := by
  obtain ⟨hpc, hle, hfits⟩ := hdestination
  refine ⟨_, if_neg ?_⟩
  rw [hwaiting]
  simp
  omega

/-- A packet is delivered as it goes down the stack. -/
theorem deliver_mirrors (hparked : Parked u root run.expected run.tailResult run.pending stack)
    (hworld : s.world = w) (hcount : s.continuations = others + run.pending.length)
    (packet : Packet) :
    Mirrors (Excused u) (deliver u run packet) (check (unwind u root packet stack)) s w
      (Stepped u root others) := by
  unfold deliver
  by_cases hwidth : packet.count = run.expected
  · obtain ⟨base, hbase, hunwind⟩ := hparked.unwind_eq
    obtain ⟨hmode, hone⟩ := hparked.adapter
    have hadapter := applyAdapter_mode hmode fun hne => hwidth.trans (hone hne)
    have hcount' := (count_adapted run.tailResult packet).trans hwidth
    rw [if_neg (not_not.2 hwidth), hunwind packet hwidth, check_ok hadapter, pure_bind]
    generalize hpending : run.pending = pending at hbase hcount
    generalize hexpected : run.expected = expected at hbase hcount'
    cases hbase with
    | root =>
      rw [unwind, if_neg (not_not.2 hcount')]
      exact .pure (.finish hworld hcount)
    | @waiting expected mode pending stack frame hrest hlive hwaiting hfid hdestination =>
      obtain ⟨resumed, hresumed⟩ := resumeFrame_ok hwaiting hdestination hcount'
      obtain ⟨resumed', hresumed', hsame⟩ := resumeFrame_saved mode hlive hresumed
      obtain ⟨hlive', hfid'⟩ := live_resumed hlive hresumed
      have hawaited : awaited u root (frame :: stack) = frame.expected := by
        simp [awaited, hwaiting]
      rw [unwind, hawaited, if_neg (not_not.2 hcount'), if_pos hwaiting, hresumed]
      dsimp only
      rw [check_ok hresumed', pure_bind, check_ok hlive.known, pure_bind, hsame]
      refine .pure (.again ⟨?_, ⟨hlive', ?_⟩, hworld, ?_⟩)
      · rw [hfid]
        exact hrest
      · rw [hfid']
      · rw [List.length_cons] at hcount
        show s.continuations = others + 1 + pending.length
        omega
  · rw [if_pos hwidth, unwind_mismatch (hparked.awaited_eq ▸ hwidth)]
    exact .throw _

/-! ## 3. Tasks that are ready -/

theorem check_finishes {σ : Type} (e : Except String α) (s : σ) :
    Finishes (check e : EStateM Failure σ α) s (fun a s' => e = .ok a ∧ s' = s)
      fun _ _ => True := by
  cases e with
  | ok a => exact .pure ⟨rfl, rfl⟩
  | error message => exact .throw trivial

theorem boxed_finishes (term : Nat) (w : World S) :
    Finishes (boxed u term) w (fun _ _ => True) fun _ _ => True := by
  cases hboxed : boxed u term w with
  | ok result w' => exact .ok hboxed trivial
  | error failure w' => exact .error hboxed trivial

/-- A task goes on as a segment with the arguments that it has. -/
def Ready.Fits (u : Program S) (expected : Nat) : Ready → Prop
  | .segment fid _ arity payload =>
    u.segment fid = some (arity, expected) ∧ payload.length = arity
  | _ => True

theorem readySegment_fits {expected term : Nat} (h : (u.segment (Tasks.termAux term)).isSome) :
    Finishes (readySegment u expected term) w (fun ready _ => ready.Fits u expected)
      fun _ _ => True := by
  obtain ⟨segment, hsegment⟩ := Option.isSome_iff_exists.1 h
  obtain ⟨happly, hemit, hlt, -⟩ := u.registered _ segment.1 segment.2 hsegment
  have harity : fidArity u.toSetting (Tasks.termAux term) = .ok segment.1 := by
    unfold fidArity
    rw [if_neg happly, if_neg hemit, if_neg (by omega), hsegment]
  unfold readySegment
  refine .get_bind (.bind (check_finishes _ _) ?_)
  rintro arity w' ⟨harity', rfl⟩
  refine .bind (check_finishes _ _) ?_
  rintro width w' ⟨hwidth, rfl⟩
  refine .ite (fun _ => .throw trivial) fun hexpected => .bind (check_finishes _ _) ?_
  rintro _ w' ⟨-, rfl⟩
  cases harity.symm.trans harity'
  cases (width_segment hsegment).1.symm.trans hwidth
  refine .pure ⟨?_, by simp⟩
  rw [hsegment, not_not.1 hexpected]

theorem tbTaskTake_fits {expected term : Nat} :
    Finishes (tbTaskTake term : W S Ready) w (fun ready _ => ready.Fits u expected)
      fun _ _ => True := by
  unfold tbTaskTake
  refine .get_bind (.bind (check_finishes _ _) ?_)
  rintro _ w' ⟨-, rfl⟩
  refine .ite (fun _ => .throw trivial) fun _ => .bind (Q := fun _ _ => True) ?_ ?_
  · unfold onHeap
    exact .get_bind (.modify_bind ((check_finishes _ _).imp fun _ _ _ => trivial))
  · intro _ w' _
    exact .pure trivial

theorem readyTask_fits {expected term : Nat} {ready : Ready} {w' : World S}
    (h : readyTask u expected term w = .ok ready w') : ready.Fits u expected := by
  have hspec : Finishes (readyTask u expected term) w (fun ready _ => ready.Fits u expected)
      fun _ _ => True := by
    unfold readyTask
    refine .get_bind (.bind (check_finishes _ _) ?_)
    rintro tail w' ⟨-, rfl⟩
    refine .ite (fun hroot => readySegment_fits hroot.1) fun _ => .ite (fun _ => ?_) fun _ =>
      .pure trivial
    exact .ite (fun _ => .throw trivial) fun _ => tbTaskTake_fits
  rw [Finishes, h] at hspec
  exact hspec

/-- A task that is ready is started in both. -/
theorem startReady_mirrors (hparked : Parked u root run.expected run.tailResult run.pending stack)
    (hworld : s.world = w) (hcount : s.continuations = others + run.pending.length) (term : Nat) :
    Mirrors (Excused u) (conclude u run (.task term)) (CallStack.startReady u root term stack) s w
      (Stepped u root others) := by
  unfold conclude CallStack.startReady
  rw [hparked.awaited_eq]
  refine world_bind hworld fun ready w' hready => ?_
  cases ready with
  | segment fid loc arity payload =>
    obtain ⟨hsegment, hlength⟩ := readyTask_fits hready
    refine Mirrors.left (cellsMem_finishes _ _) ?_
    rintro _ s₁ ⟨hworld₁, hcount₁⟩
    refine Mirrors.left (tbCallFrameOwned_finishes _ _ _ _) ?_
    rintro frame s₂ ⟨rfl, hworld₂, hcount₂⟩
    refine world_bind (hworld₂.trans hworld₁) fun _ w₁ _ => world_bind rfl fun _ w₂ _ =>
      .pure (.again ?_)
    refine ⟨hparked, ⟨live_segment hsegment hlength, (width_segment hsegment).2⟩, rfl, ?_⟩
    have hcount' : s₁.continuations = s.continuations := hcount₁
    show s₂.continuations = others + 1 + run.pending.length
    omega
  | apply closure argument => exact .pure (.again ⟨hparked, trivial, rfl, hcount⟩)
  | graph => exact .pure (.graph hparked rfl hcount)

/-! ## 4. Calls -/

/-- What is checked of a direct call. -/
theorem tbTaskCallValidate_ok {body : Body} {outcome : Outcome} {expected fid : Nat}
    (h : tbTaskCallValidate u body outcome expected = .ok fid) :
    u.segment fid = some (outcome.count, expected) ∧
      ¬(outcome.count ≠ 0 ∧ outcome.words = .null) := by
  unfold tbTaskCallValidate at h
  split at h
  · cases h
  · split at h
    · cases h
    · rename_i arity width hsegment
      split at h
      · cases h
      · rename_i hvalid
        obtain ⟨harity, hwords⟩ := not_or.1 hvalid
        obtain rfl := not_not.1 harity
        split at h
        · cases h
        · rename_i hexpected
          split at h
          · cases h
          · cases h
            rw [hsegment, not_not.1 hexpected]
            exact ⟨rfl, hwords⟩

/-- A frame after its turn. -/
structure Turned (u : Program S) (root others : Nat) (run : Run) (stack : List CallFrame)
    (current : CallFrame) (s : State S) (w : World S) : Prop where
  live : Live u current
  width : width u current.fid = awaited u root stack
  parked : if current.waiting then
      Parked u root (awaited u root stack) run.tailResult run.pending stack ∧ HasDestination current
    else Parked u root run.expected run.tailResult run.pending (current :: stack)
  world : s.world = w
  count : s.continuations = others + 1 + run.pending.length

theorem Turned.of_same {current : CallFrame} {s' : State S}
    (h : Turned u root others run stack current s w) (hworld : s'.world = s.world)
    (hcount : s'.continuations = s.continuations) :
    Turned u root others run stack current s' w :=
  ⟨h.live, h.width, h.parked, hworld.trans h.world, hcount.trans h.count⟩

/-- A frame that is done is given back. -/
theorem leaveFrame_done {current : CallFrame} (hwaiting : current.waiting = false)
    (hcount : s.continuations ≠ 0) :
    Finishes (leaveFrame run current) s
      (fun run' s' => run' = run ∧ s' = { s with continuations := s.continuations - 1 })
      (Excused u) := by
  unfold leaveFrame
  rw [if_neg (by rw [hwaiting]; decide)]
  refine .bind (tbCallFrameFree_finishes hcount) ?_
  rintro _ s' rfl
  exact .pure ⟨rfl, rfl⟩

/-- A frame that is left is on the stack. -/
theorem Turned.leave {current : CallFrame} (h : Turned u root others run stack current s w) :
    Finishes (leaveFrame run current) s
      (fun run' s' => Parked u root run'.expected run'.tailResult run'.pending (current :: stack) ∧
        s'.world = w ∧ s'.continuations = others + run'.pending.length)
      (Excused u) := by
  have hparked := h.parked
  have hcount := h.count
  cases hwaiting : current.waiting with
  | true =>
    rw [hwaiting] at hparked
    unfold leaveFrame
    rw [if_pos hwaiting]
    refine .pure ⟨.waiting hparked.1 h.live hwaiting h.width hparked.2, h.world, ?_⟩
    show s.continuations = others + (run.pending.length + 1)
    omega
  | false =>
    rw [if_neg (by rw [hwaiting]; decide)] at hparked
    refine (leaveFrame_done hwaiting (by omega)).imp ?_
    rintro run' s' ⟨rfl, rfl⟩
    refine ⟨hparked, h.world, ?_⟩
    show s.continuations - 1 = others + run'.pending.length
    omega

/-- **A direct call** goes the same way on both sides. -/
theorem directCall_mirrors {current : CallFrame} (h : Turned u root others run stack current s w)
    (outcome : Outcome) :
    Mirrors (Excused u) (directCall u run current outcome)
      (CallStack.directCall u root stack current outcome) s w (Stepped u root others) := by
  have hparked := h.parked
  have hexpected : (if current.waiting then current.expected else run.expected) =
      awaited u root (current :: stack) := by
    split
    · rename_i hwaiting
      simp [awaited, hwaiting]
    · rename_i hwaiting
      rw [if_neg hwaiting] at hparked
      exact hparked.awaited_eq.symm
  unfold directCall CallStack.directCall
  rw [hexpected]
  refine check_bind fun fid hfid => ?_
  obtain ⟨hsegment, hwords⟩ := tbTaskCallValidate_ok hfid
  have hlive := live_segment hsegment (length_read current.toBody hwords)
  have hwidth := (width_segment hsegment).2
  split
  · rename_i hreuse
    obtain ⟨hwaiting, rfl⟩ := hreuse
    rw [if_neg (by rw [hwaiting]; decide)] at hparked
    rw [reuseFrame_eq h.live hwaiting hsegment hwords]
    refine world_bind h.world fun _ w' _ => .pure (.again ⟨hparked, ⟨hlive, ?_⟩, rfl, h.count⟩)
    exact hwidth.trans hparked.awaited_eq
  · refine Mirrors.left (cellsMem_finishes _ _) ?_
    rintro _ s₁ ⟨hworld₁, hcount₁⟩
    refine Mirrors.left (h.of_same hworld₁ hcount₁).leave ?_
    rintro run' s' ⟨hparked', hworld', hcount'⟩
    refine Mirrors.left (tbCallFrameOwned_finishes _ _ _ _) ?_
    rintro frame s'' ⟨rfl, hworld'', hcount''⟩
    refine world_bind (hworld''.trans hworld') fun _ w' _ =>
      .pure (.again ⟨hparked', ⟨hlive, ?_⟩, rfl, ?_⟩)
    · exact hwidth.trans hparked'.awaited_eq
    · show s''.continuations = others + 1 + run'.pending.length
      omega

/-! ## 5. Turns -/

/-- Generated code keeps the frame of the dispatcher. -/
theorem live_stays {current : CallFrame} {body : Body} (hlive : Live u current)
    (h : Stays current.toBody body) : Live u { current with toBody := body } :=
  ⟨hlive.saved, hlive.slots, h.1.trans hlive.values, hlive.known,
    fun arity count hsegment => h.2.trans (hlive.captures arity count hsegment)⟩

theorem frameTurn_live {current : CallFrame} (hlive : Live u current) {turn : Turn × CallFrame}
    {w' : World S} (h : frameTurn u current w = .ok turn w') :
    Live u turn.2 ∧ turn.2.fid = current.fid := by
  have hspec : Finishes (frameTurn u current) w
      (fun turn _ => Live u turn.2 ∧ turn.2.fid = current.fid) fun _ _ => True := by
    unfold frameTurn
    refine .ite (fun _ => .throw trivial) fun _ => .ite (fun _ => ?_) fun _ => ?_
    · refine .bind (Q := fun outcome _ => Stays current.toBody outcome.2) ?_ ?_
      · cases hcode : u.segmentCode current.fid current.toBody w with
        | ok outcome w' => exact .ok hcode (u.segmentStays _ _ _ _ _ _ hcode)
        | error failure w' => exact .error hcode trivial
      · rintro outcome w' hstays
        refine .bind (Q := fun _ _ => True) ?_ fun turn w' _ => .pure ⟨live_stays hlive hstays, rfl⟩
        cases hturn : segmentTurn u current.fid outcome.2 outcome.1 w' with
        | ok turn w'' => exact .ok hturn trivial
        | error failure w'' => exact .error hturn trivial
    · cases hresume : u.resumeCode current.fid with
      | none => exact .throw trivial
      | some code =>
        refine .bind (Q := fun result _ => Stays current.toBody result.2) ?_ ?_
        · cases hcode : code current.toBody w with
          | ok result w' => exact .ok hcode (u.resumeStays _ _ _ _ _ _ _ hresume hcode)
          | error failure w' => exact .error hcode trivial
        · rintro result w' hstays
          exact .bind (boxed_finishes _ _) fun turn w' _ => .pure ⟨live_stays hlive hstays, rfl⟩
  rw [Finishes, h] at hspec
  exact hspec

/-- What is checked of an adapter. -/
theorem checkAdapter_ok {current : CallFrame} {turn : Turn}
    (h : checkAdapter u current turn = .ok ()) (hlive : Live u current)
    (hne : current.tailResult ≠ 0) :
    current.waiting = false ∧ turn.isWords = false ∧ width u current.fid = 1 := by
  unfold checkAdapter at h
  rw [if_neg hne] at h
  split at h
  · cases h
  · rename_i hturn
    obtain ⟨hwaiting, hwords⟩ := not_or.1 hturn
    rw [hlive.known] at h
    dsimp only at h
    split at h
    · cases h
    · rename_i hwidth
      exact ⟨by simpa using hwaiting, by simpa using hwords, not_not.1 hwidth⟩

/-- What is checked of a frame that waits. -/
theorem checkDestination_ok {current : CallFrame} {turn : Turn}
    (h : checkDestination current turn = .ok ()) (hwaiting : current.waiting = true) :
    HasDestination current ∧ turn.isWords = false := by
  unfold checkDestination at h
  rw [if_neg (by rw [hwaiting]; decide)] at h
  split at h
  · cases h
  · rename_i hvalid
    refine ⟨⟨by omega, by omega, by omega⟩, ?_⟩
    cases turn with
    | call outcome => rfl
    | result result =>
      cases result with
      | task term => rfl
      | words packet => cases h

/-- The adapter of a frame is checked in both. -/
theorem compose_bind {current : CallFrame} {γ : Type} {f : Run → F S β} {f' : W S γ}
    {Q : β → State S → γ → World S → Prop} (hmode : Mode run.tailResult)
    (h : Mode current.tailResult →
      Mirrors (Excused u)
        (f { run with tailResult := composeMode run.tailResult current.tailResult }) f' s w Q) :
    Mirrors (Excused u) (check (composeAdapter run current) >>= f)
      (check (tbResultCompose 0 current.tailResult) >>= fun _ => f') s w Q := by
  unfold composeAdapter
  cases hcompose : tbResultCompose 0 current.tailResult with
  | error message =>
    obtain ⟨hne, herror⟩ := compose_error run.tailResult hcompose
    rw [if_neg hne, herror]
    exact .throw _
  | ok mode =>
    have hinner := mode_of_compose hcompose
    have hrun := h hinner
    split
    · rename_i hzero
      rw [hzero] at hrun
      exact hrun
    · rename_i hne
      rw [tbResultCompose_mode hmode hinner hne]
      exact hrun

/-- **One turn of a frame** goes the same way on both sides. -/
theorem advanceFrame_mirrors {current : CallFrame}
    (h : Related u root others (.frame current) run stack s w) :
    Mirrors (Excused u) (advanceFrame u run current)
      (CallStack.advanceFrame u root stack current) s w (Stepped u root others) := by
  obtain ⟨hlive, hwidth⟩ := h.suits
  obtain ⟨hmode, hone⟩ := h.parked.adapter
  have hawaited := h.parked.awaited_eq
  have hcount : s.continuations = others + 1 + run.pending.length := h.count
  unfold advanceFrame CallStack.advanceFrame
  refine world_bind h.world fun result w' hturn => ?_
  obtain ⟨turn, current'⟩ := result
  obtain ⟨hlive', hfid⟩ := frameTurn_live hlive hturn
  dsimp only at hlive' hfid ⊢
  refine check_bind fun _ hadapter => compose_bind hmode fun hinner => ?_
  refine check_bind fun _ hdestination => ?_
  have hadapter' := fun hne => checkAdapter_ok hadapter hlive' hne
  have hwidth' : width u current'.fid = run.expected := by rw [hfid, hwidth]
  have hturned : Turned u root others
      { run with tailResult := composeMode run.tailResult current'.tailResult } stack current'
      { s with world := w' } w' := by
    refine ⟨hlive', hwidth'.trans hawaited.symm, ?_, rfl, hcount⟩
    split
    · rename_i hwaiting
      have hzero : current'.tailResult = 0 := by
        by_contra hne
        cases hwaiting.symm.trans (hadapter' hne).1
      rw [hawaited, hzero]
      exact ⟨h.parked, (checkDestination_ok hdestination hwaiting).1⟩
    · rename_i hwaiting
      refine .tail h.parked hlive' (by simpa using hwaiting) hwidth' hinner fun hne => ?_
      exact hwidth'.symm.trans (hadapter' hne).2.2
  cases turn with
  | call outcome => exact directCall_mirrors hturned outcome
  | result result =>
    cases result with
    | task term =>
      refine Mirrors.left hturned.leave ?_
      rintro run' s' ⟨hparked', hworld', hcount'⟩
      exact startReady_mirrors hparked' hworld' hcount' term
    | words packet =>
      have hzero : current'.tailResult = 0 := by
        by_contra hne
        cases (hadapter' hne).2.1
      have hwaiting : current'.waiting = false := by
        by_contra hne
        cases (checkDestination_ok hdestination (by simpa using hne)).2
      have hheld : s.continuations ≠ 0 := by omega
      rw [hzero]
      refine Mirrors.left (leaveFrame_done hwaiting hheld) ?_
      rintro run' s' ⟨rfl, rfl⟩
      refine deliver_mirrors h.parked rfl ?_ packet
      show s.continuations - 1 = others + run.pending.length
      omega

/-- **A result** is concluded the same way on both sides. -/
theorem conclude_mirrors (hparked : Parked u root run.expected run.tailResult run.pending stack)
    (hworld : s.world = w) (hcount : s.continuations = others + run.pending.length)
    (applied : Applied) (hframe : ∀ fid captures argument, applied = .frame fid captures argument →
      (u.resumeCode fid).isSome ∧ run.expected = 1) :
    Mirrors (Excused u) (advanceApplied u run applied)
      (CallStack.advanceApplied u root stack applied) s w (Stepped u root others) := by
  cases applied with
  | frame fid captures argument =>
    obtain ⟨hresume, hexpected⟩ := hframe fid captures argument rfl
    refine Mirrors.left (tbCallFrameOwned_finishes _ _ _ _) ?_
    rintro frame s' ⟨rfl, hworld', hcount'⟩
    refine .pure (.again ⟨hparked, ⟨live_resume _ _ hresume, ?_⟩, hworld'.trans hworld, ?_⟩)
    · rw [hexpected]
      exact (width_resume hresume).2.2
    · show s'.continuations = others + 1 + run.pending.length
      omega
  | result result =>
    cases result with
    | words packet => exact deliver_mirrors hparked hworld hcount packet
    | task term => exact startReady_mirrors hparked hworld hcount term

/-- The direct calls, and those through a closure, make frames of functions that can be resumed. -/
theorem applyDirect_frame {fid : Nat} {captures : List Nat} {argument : Nat} {applied : Applied}
    {w' : World S} (h : applyDirect u fid captures argument w = .ok applied w') :
    ∀ fid captures argument, applied = .frame fid captures argument →
      (u.resumeCode fid).isSome := by
  rintro fid' captures' argument' rfl
  unfold applyDirect at h
  split at h
  · rename_i hresume
    cases h
    exact hresume
  · unfold callClosure at h
    rw [Mirrors.bind_eq] at h
    cases hcode : u.closureCode fid captures argument w with
    | ok term w'' =>
      rw [hcode] at h
      dsimp only at h
      rw [Mirrors.bind_eq] at h
      cases hboxed : boxed u term w'' with
      | ok result w''' =>
        rw [hboxed] at h
        cases h
      | error failure w''' =>
        rw [hboxed] at h
        cases h
    | error failure w'' =>
      rw [hcode] at h
      cases h

theorem applyClosure_frame {expected closure argument : Nat} {applied : Applied} {w' : World S}
    (h : applyClosure u expected closure argument w = .ok applied w') :
    ∀ fid captures argument, applied = .frame fid captures argument →
      (u.resumeCode fid).isSome ∧ expected = 1 := by
  have hspec : Finishes (applyClosure u expected closure argument) w
      (fun applied _ => ∀ fid captures argument, applied = .frame fid captures argument →
        (u.resumeCode fid).isSome ∧ expected = 1) fun _ _ => True := by
    unfold applyClosure
    refine .ite (fun _ => .throw trivial) fun hexpected => .ite (fun _ => .throw trivial) fun _ =>
      .ite (fun _ => .throw trivial) fun _ => .ite (fun _ => ?_) fun _ => ?_
    · unfold emit
      refine .ite (fun _ => .throw trivial) fun _ => .get_bind (.bind (Q := fun _ _ => True) ?_ ?_)
      · unfold onHeap
        exact .get_bind (.modify_bind ((check_finishes _ _).imp fun _ _ _ => trivial))
      · intro loc w' _
        refine .modify_bind (.bind (boxed_finishes _ _) ?_)
        rintro result w' -
        refine .pure ?_
        rintro fid captures argument happlied
        cases happlied
    · cases u.captures (Tasks.termAux closure) with
      | none => exact .throw trivial
      | some count =>
        refine .bind (Q := fun _ _ => True) ?_ ?_
        · cases htake : takeCaptures u closure count w with
          | ok captures w' => exact .ok htake trivial
          | error failure w' => exact .error htake trivial
        · intro captures w' _
          cases hdirect : applyDirect u (Tasks.termAux closure) captures argument w' with
          | ok applied w'' =>
            exact .ok hdirect fun fid captures argument happlied =>
              ⟨applyDirect_frame hdirect fid captures argument happlied, not_not.1 hexpected⟩
          | error failure w'' => exact .error hdirect trivial
  rw [Finishes, h] at hspec
  exact hspec

/-! ## 6. Runs -/

/-- An iteration of the loop is one with the stack of calls. -/
theorem advanceStep_mirrors {control : Control}
    (h : Related u root others control run stack s w) :
    Mirrors (Excused u) (advanceStep u control run) (CallStack.advanceStep u root control stack) s w
      (Stepped u root others) := by
  unfold advanceStep CallStack.advanceStep
  refine world_bind h.world fun _ w' _ => ?_
  cases control with
  | value packet =>
    refine deliver_mirrors h.parked rfl ?_ packet
    exact h.count
  | frame current => exact advanceFrame_mirrors ⟨h.parked, h.suits, rfl, h.count⟩
  | direct fid captures argument =>
    refine world_bind rfl fun applied w'' happlied => ?_
    refine conclude_mirrors h.parked rfl ?_ applied fun fid' captures' argument' hframe => ?_
    · exact h.count
    · exact ⟨applyDirect_frame happlied fid' captures' argument' hframe, h.suits⟩
  | apply closure argument =>
    dsimp only
    rw [h.parked.awaited_eq]
    refine world_bind rfl fun applied w'' happlied => ?_
    refine conclude_mirrors h.parked rfl ?_ applied (applyClosure_frame happlied)
    exact h.count

/-- The ends of a call of the dispatcher. -/
inductive Advanced (u : Program S) (root others : Nat) :
    Event → State S → CallStack.Event → World S → Prop
  | finish {packet : Packet} {s : State S} {w : World S} :
    s.world = w → s.continuations = others →
    Advanced u root others (.finish packet) s (.finish packet) w
  | graph {term : Nat} {run : Run} {stack : List CallFrame} {s : State S} {w : World S} :
    Parked u root run.expected run.tailResult run.pending stack → s.world = w →
    s.continuations = others + run.pending.length →
    Advanced u root others (.graph term run) s (.graph term stack) w
  | coordinator {control : Control} {run : Run} {stack : List CallFrame} {s : State S}
    {w : World S} :
    Related u root others control run stack s w →
    Advanced u root others (.coordinator control run) s (.coordinator control stack) w

/-- **A task advances** the same way on both sides: by induction on the fuel. -/
theorem tbTaskAdvance_mirrors {control : Control} (worker : Bool) (fuel : Nat)
    (h : Related u root others control run stack s w) :
    Mirrors (Excused u) (tbTaskAdvance u worker fuel control run)
      (CallStack.advance u root worker fuel control stack) s w (Advanced u root others) := by
  induction fuel generalizing control run stack s w with
  | zero => exact .throw _
  | succ fuel ih =>
    unfold tbTaskAdvance CallStack.advance
    refine .ite (fun _ => .pure (.coordinator h)) fun _ => ?_
    refine Mirrors.bind (advanceStep_mirrors h) ?_
    rintro step s' step' w' hstep
    cases hstep with
    | again hrelated => exact ih hrelated
    | finish hworld hcount => exact .pure (.finish hworld hcount)
    | graph hparked hworld hcount => exact .pure (.graph hparked hworld hcount)

/-- **A task is executed** the same way on both sides: by induction on the fuel. -/
theorem execute_mirrors {control : Control} (wishes : Nat → Bool) (fuel : Nat)
    (h : Related u root others control run stack s w) :
    Mirrors (Excused u) (execute u wishes fuel control run)
      (CallStack.execute u root wishes fuel control stack) s w
      fun packet s' packet' w' => packet = packet' ∧ s'.world = w' ∧ s'.continuations = others := by
  induction fuel generalizing control run stack s w with
  | zero => exact .throw _
  | succ fuel ih =>
    unfold execute CallStack.execute
    refine Mirrors.bind (tbTaskAdvance_mirrors _ _ h) ?_
    rintro event s' event' w' hevent
    cases hevent with
    | finish hworld hcount => exact .pure ⟨rfl, hworld, hcount⟩
    | @graph term run stack s w hparked hworld hcount =>
      dsimp only
      rw [hparked.awaited_eq]
      exact world_bind hworld fun packet w'' _ => ih ⟨hparked, trivial, rfl, hcount⟩
    | coordinator hrelated => exact ih hrelated

/-! ## 7. The run of a task -/

/-- What a run begins with: a task of a segment, one of another function, or an application. -/
inductive Started (u : Program S) : Control → Nat → Prop
  | segment {fid arity width : Nat} {words : List Nat} : u.segment fid = some (arity, width) →
    words.length = arity → Started u (.frame (freshFrame u fid words 0)) width
  | direct (fid : Nat) (captures : List Nat) (argument : Nat) :
    Started u (.direct fid captures argument) 1
  | apply (closure argument : Nat) : Started u (.apply closure argument) 1

theorem Started.related {control : Control} {expected : Nat} (h : Started u control expected)
    (hcount : s.continuations = others + control.held) :
    Related u expected others control ⟨[], expected, 0⟩ [] s s.world := by
  refine ⟨.root, ?_, rfl, hcount⟩
  cases h with
  | segment hsegment hwords => exact ⟨live_segment hsegment hwords, (width_segment hsegment).2⟩
  | direct fid captures argument => rfl
  | apply closure argument => trivial

/-- **The run of a task is one with a frame for each call**, and holds no frame at its end; where a
frame is reused, the arguments are those that its outcome had. -/
theorem execute_transparent (u : Program S) (wishes : Nat → Bool) (fuel : Nat)
    {control : Control} {expected : Nat} (hstarted : Started u control expected) (s : State S)
    (hheld : control.held ≤ s.continuations) :
    (Mirrors (Excused u) (execute u wishes fuel control ⟨[], expected, 0⟩)
      (CallStack.execute u expected wishes fuel control []) s s.world
      fun packet s' packet' w' => packet = packet' ∧ s'.world = w' ∧
        s'.continuations + control.held = s.continuations) ∧
    ∀ current outcome width, Live u current → current.waiting = false →
      tbTaskCallValidate u current.toBody outcome width = .ok current.fid →
        reuseFrame current outcome =
          freshFrame u current.fid (outcome.words.read current.toBody outcome.count) 0 := by
  refine ⟨?_, ?_⟩
  · obtain ⟨others, hothers⟩ := Nat.exists_eq_add_of_le' hheld
    refine (execute_mirrors wishes fuel (hstarted.related hothers)).imp ?_
    rintro packet s' packet' w' ⟨rfl, hworld, hcount⟩
    exact ⟨rfl, hworld, by omega⟩
  · intro current outcome width hlive hwaiting hvalid
    obtain ⟨hsegment, hwords⟩ := tbTaskCallValidate_ok hvalid
    exact reuseFrame_eq hlive hwaiting hsegment hwords

/-- A segment that calls itself once in its tail, with an argument that lies in its values. -/
def bounceCode (body : Body) : W Unit (Outcome × Body) :=
  if body.captures = [0] then pure (⟨0, .memory [7], .null, 1, outcomeWords⟩, body)
  else pure (⟨2, .values 0, .null, 1, outcomeCall⟩, body)

theorem bounceCode_stays {body body' : Body} {w w' : World Unit} {outcome : Outcome}
    (h : bounceCode body w = .ok (outcome, body') w') : Stays body body' := by
  unfold bounceCode at h
  split at h <;> cases h <;> exact ⟨rfl, rfl⟩

def bounce : Program Unit where
  segment fid := if fid = 2 then some (1, 1) else none
  captures _ := none
  resumeSlots _ := 1
  device _ := false
  maxTasks := 8
  maxSteps := 8
  maxContinuations := 8
  allocates _ := true
  segmentCode _ body := bounceCode body
  resumeCode _ := none
  closureCode _ _ _ := errFail "no closure"
  parallel _ := false
  cidEmit := 0
  emitArity := 1
  backed _ := true
  allocatesFrame _ := true
  graph _ := errFail "no graph"
  registered fid arity width h := by
    split at h
    · rename_i hfid
      rw [hfid]
      decide
    · cases h
  resumable fid h := by cases h
  segmentStays _ _ _ _ _ _ h := bounceCode_stays h
  resumeStays _ _ _ _ _ _ _ h := by cases h

def bounceState : State Unit where
  world := {
    heap := ⟨8, 8, fun _ => 0, fun _ => 0#64, fun _ => 0, 1, 8, 0, 0⟩
    cancelled := false
    steps := 0
    allocations := 0
    segmentCalls := 0
    resultWords := 0
    multiwordResults := 0
    rest := () }
  continuations := 1
  requests := 0

theorem execute_transparent_bounce :
    ((Mirrors (Excused bounce)
      (execute bounce (fun _ => false) 3 (.frame (freshFrame bounce 2 [1] 0)) ⟨[], 1, 0⟩)
      (CallStack.execute bounce 1 (fun _ => false) 3 (.frame (freshFrame bounce 2 [1] 0)) [])
      bounceState bounceState.world
      fun packet s' packet' w' => packet = packet' ∧ s'.world = w' ∧ s'.continuations + 1 = 1) ∧
      reuseFrame (freshFrame bounce 2 [1] 0) ⟨2, .values 0, .null, 1, outcomeCall⟩ =
        freshFrame bounce 2 [0] 0) ∧
    ∃ s', execute bounce (fun _ => false) 3 (.frame (freshFrame bounce 2 [1] 0)) ⟨[], 1, 0⟩
      bounceState = .ok ⟨[7], [1]⟩ s' :=
  have hstarted : Started bounce (.frame (freshFrame bounce 2 [1] 0)) 1 :=
    .segment (show bounce.segment 2 = some (1, 1) from rfl) rfl
  have htransparent := execute_transparent bounce (fun _ => false) 3 hstarted bounceState
    (by decide)
  ⟨⟨htransparent.1, htransparent.2 (freshFrame bounce 2 [1] 0)
      ⟨2, .values 0, .null, 1, outcomeCall⟩ 1 (live_segment rfl rfl) rfl rfl⟩, ⟨_, rfl⟩⟩

end TeamyBend.Runtime.TaskRuns
