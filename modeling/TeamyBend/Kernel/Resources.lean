/-
# What resources cannot change

Fuel and depth bound a run and are read by nothing else.  So a run that succeeds, succeeds in the
same way with more fuel and at less depth, and a run that ends, well or badly, gives back the depth
it took and leaves a head memo exactly where it found one.

Both are carried through every function of the kernel at once (`Follows`), for a relation between
two engines that is closed under what the functions do to the engine (`Closed`): an engine and the
same with more resources are so related, and so is an engine without a memo to itself, where the
functions with the memo are those without.
-/
import TeamyBend.Kernel.Book
import TeamyBend.Kernel.Normalize
import TeamyBend.Library.TwoRuns

namespace TeamyBend.Kernel

open Library

/-! ## 1. Two engines -/

/-- What every function gives back: the depth, and whether there is a memo. -/
def Engine.level (e : Engine) : Nat × Bool := (e.depth, e.normalizationMemo.isSome)

/-- A relation of two engines that no function of the kernel tells apart. -/
structure Closed (R : Engine → Engine → Prop) : Prop where
  step : ∀ e e', R e e' → e.fuel ≠ 0 →
    e'.fuel ≠ 0 ∧ R { e with fuel := e.fuel - 1 } { e' with fuel := e'.fuel - 1 }
  enter : ∀ e e', R e e' → e.depth < 128 →
    e'.depth < 128 ∧ R { e with depth := e.depth + 1 } { e' with depth := e'.depth + 1 }
  leave : ∀ e₀ e₀' e e', R e₀ e₀' → R e e' → e₀.depth < e.depth →
    R { e with depth := e.depth - 1 } { e' with depth := e'.depth - 1 }
  restore : ∀ e₀ e₀' e e', R e₀ e₀' → R e e' →
    R { e with depth := e₀.depth } { e' with depth := e₀'.depth }
  fresh : ∀ e e', R e e' →
    e'.freshId = e.freshId ∧
      R { e with freshId := e.freshId + 1 } { e' with freshId := e'.freshId + 1 }
  aliased : ∀ e e' (g : (Nat → Option Term) → Nat → Option Term), R e e' →
    e'.aliases = e.aliases ∧ R { e with aliases := g e.aliases } { e' with aliases := g e'.aliases }
  declared : ∀ e e', R e e' → e'.defs = e.defs ∧ e'.adts = e.adts ∧
    e'.foreignContracts = e.foreignContracts ∧ e'.numericContracts = e.numericContracts ∧
    e'.opaqueContracts = e.opaqueContracts
  same : ∀ e e', R e e' → e'.pointers.same e'.fuel = e.pointers.same e.fuel

/-- Two functions that cannot be told apart by related engines. -/
abbrev Steady {α : Type} (R : Engine → Engine → Prop) (m m' : M α) : Prop :=
  Follows Engine.level R m m'

section Steady

variable {R : Engine → Engine → Prop} {α : Type}

theorem steady_fail (message : String) (m' : M α) : Steady R (fail message) m' := .throw _ _

theorem steady_exhausted (m' : M α) : Steady R exhausted m' := .throw _ _

theorem steady_failShowing (before : String) (value : Term) (m' : M α) :
    Steady R (failShowing before value) m' :=
  ⟨fun _ => rfl, fun _ _ _ _ _ h => by cases h⟩

theorem steady_mismatch (expected observed : Term) (m' : M α) :
    Steady R (mismatch expected observed) m' :=
  ⟨fun _ => rfl, fun _ _ _ _ _ h => by cases h⟩

/-- A step takes one unit of fuel. -/
theorem step_run (e : Engine) : step e =
    if e.fuel = 0 then .error (.new "kernel evaluation budget exhausted; proof not accepted") e
    else .ok () { e with fuel := e.fuel - 1 } := by
  show (if e.fuel = 0 then exhausted else set _ : M Unit) e = _
  split <;> rfl

/-- Entering a level takes one of depth. -/
theorem enter_run (e : Engine) : enter e =
    if 128 ≤ e.depth then .error (.new "kernel nesting limit exhausted; proof not accepted") e
    else .ok () { e with depth := e.depth + 1 } := by
  show (if 128 ≤ e.depth then fail _ else set _ : M Unit) e = _
  split <;> rfl

/-- A fresh name is the counter. -/
theorem freshId_run (e : Engine) : freshId e =
    if e.freshId = usizeMax then .error (.new "binder identifier space exhausted") e
    else .ok e.freshId { e with freshId := e.freshId + 1 } := by
  show (if e.freshId = usizeMax then fail _ else _ : M Nat) e = _
  split <;> rfl

/-- A charge takes both, and gives the depth back at the end. -/
theorem charged_run (m : M α) (e : Engine) : charged m e =
    if e.fuel = 0 then .error (.new "kernel evaluation budget exhausted; proof not accepted") e
    else if 128 ≤ e.depth then
      .error (.new "kernel nesting limit exhausted; proof not accepted")
        { e with fuel := e.fuel - 1 }
    else ensuring m (fun e => { e with depth := e.depth - 1 })
      { e with fuel := e.fuel - 1, depth := e.depth + 1 } := by
  show EStateM.bind step (fun _ => EStateM.bind enter fun _ => ensuring m _) e = _
  rw [EStateM.bind, step_run]
  by_cases hfuel : e.fuel = 0
  · rw [if_pos hfuel, if_pos hfuel]
  · rw [if_neg hfuel, if_neg hfuel]
    show EStateM.bind enter _ { e with fuel := e.fuel - 1 } = _
    rw [EStateM.bind, enter_run]
    by_cases hdepth : 128 ≤ e.depth
    · rw [if_pos hdepth, if_pos hdepth]
    · rw [if_neg hdepth, if_neg hdepth]

theorem stateAfter_ensuring (m : M α) (change : Engine → Engine) (e : Engine) :
    stateAfter (ensuring m change) e = change (stateAfter m e) := by
  rw [stateAfter, stateAfter, ensuring]
  cases m e <;> rfl

/-- A computation that either fails or changes the engine and nothing else. -/
theorem follows_update {γ : Type} {f : Engine → γ} {m : M α} {c : Engine → Prop} [DecidablePred c]
    {err : KernelError} {a : Engine → α} {g : Engine → Engine}
    (hrun : ∀ e, m e = if c e then .error err e else .ok (a e) (g e))
    (hg : ∀ e, f (g e) = f e)
    (hmore : ∀ e e', R e e' → ¬c e → ¬c e' ∧ a e' = a e ∧ R (g e) (g e')) : Follows f R m m := by
  refine ⟨fun e => ?_, fun e e' b e₁ he h => ?_⟩
  · rw [stateAfter, hrun]
    by_cases hc : c e
    · rw [if_pos hc]
    · rw [if_neg hc]
      exact hg e
  · rw [hrun] at h
    by_cases hc : c e
    · rw [if_pos hc] at h
      cases h
    · rw [if_neg hc] at h
      cases h
      obtain ⟨hc', ha, hnext⟩ := hmore e e' he hc
      refine ⟨g e', ?_, hnext⟩
      rw [hrun, if_neg hc', ha]

variable (hR : Closed R)
include hR

theorem steady_step : Steady R step step := by
  refine follows_update step_run (fun _ => rfl) fun e e' he hfuel => ?_
  obtain ⟨hfuel', hnext⟩ := hR.step e e' he hfuel
  exact ⟨hfuel', rfl, hnext⟩

theorem steady_freshId : Steady R freshId freshId := by
  refine follows_update freshId_run (fun _ => rfl) fun e e' he hmax => ?_
  obtain ⟨hid, hnext⟩ := hR.fresh e e' he
  exact ⟨hid ▸ hmax, hid, hnext⟩

/-- A charged rule keeps the level, since the frame it takes is given back at both ends. -/
theorem steady_charged {m m' : M α} (hm : Steady R m m') : Steady R (charged m) (charged m') := by
  refine ⟨fun e => ?_, fun e e' a e₂ he h => ?_⟩
  · rw [stateAfter, charged_run]
    by_cases hfuel : e.fuel = 0
    · rw [if_pos hfuel]
    rw [if_neg hfuel]
    by_cases hdepth : 128 ≤ e.depth
    · rw [if_pos hdepth]
      rfl
    rw [if_neg hdepth]
    have hframe := stateAfter_ensuring m (fun e => { e with depth := e.depth - 1 })
      { e with fuel := e.fuel - 1, depth := e.depth + 1 }
    have hlevel := hm.fixes { e with fuel := e.fuel - 1, depth := e.depth + 1 }
    rw [stateAfter] at hframe
    rw [hframe]
    have hdepth : (stateAfter m _).depth = e.depth + 1 := congrArg Prod.fst hlevel
    have hmemo : (stateAfter m _).normalizationMemo.isSome = _ := congrArg Prod.snd hlevel
    exact Prod.ext (by simp [Engine.level, hdepth]) hmemo
  · obtain ⟨hfuel, hdepth, e₁, hrun, rfl⟩ := returns_charged.mp h
    obtain ⟨hfuel', hstep⟩ := hR.step e e' he hfuel
    obtain ⟨hdepth', henter⟩ := hR.enter _ _ hstep hdepth
    obtain ⟨e₁', hrun', he₁⟩ := hm.more _ _ a e₁ henter hrun
    have hlevel := hm.fixes { e with fuel := e.fuel - 1, depth := e.depth + 1 }
    rw [stateAfter, hrun] at hlevel
    have hdeep : e.depth < e₁.depth := by
      have h : e₁.depth = e.depth + 1 := congrArg Prod.fst hlevel
      omega
    exact ⟨_, returns_charged.mpr ⟨hfuel', hdepth', e₁', hrun', rfl⟩,
      hR.leave _ _ _ _ he he₁ hdeep⟩

theorem steady_ptrEq (a b : Term) : Steady R (ptrEq a b) (ptrEq a b) := by
  refine .read (fun e => .pure _) fun e e' he => ?_
  rw [hR.same e e' he]

end Steady

/-! ## 2. Fresh names -/

section Functions

variable {R : Engine → Engine → Prop}

/-- The arguments are gone through in the same order. -/
theorem steady_mapTerms {rule rule' : Term → M Term} (h : ∀ t, Steady R (rule t) (rule' t))
    (args : List Term) : Steady R (mapTerms rule args) (mapTerms rule' args) := by
  induction args with
  | nil => exact .pure _
  | cons a args ih => exact (h a).bind fun _ => ih.bind fun _ => .pure _

variable (hR : Closed R)

section Freshen

include hR

theorem steady_freshenBindings {freshen freshen' : Term → M Term}
    (h : ∀ t, Steady R (freshen t) (freshen' t)) (bindings : List (LetBinding Term))
    (body : Term) :
    Steady R (freshenBindings freshen bindings body) (freshenBindings freshen' bindings body) := by
  induction bindings generalizing body with
  | nil => exact .pure _
  | cons b bindings ih =>
    exact (steady_freshId hR).bind fun _ => (h _).bind fun _ => (ih _).bind fun _ => .pure _

/-- One level of a renaming, given the renaming of the parts. -/
theorem steady_freshenInner {freshen freshen' : Term → M Term}
    (h : ∀ t, Steady R (freshen t) (freshen' t)) (t : Term) :
    Steady R (freshenInner freshen t) (freshenInner freshen' t) := by
  unfold freshenInner
  split
  · exact (steady_freshId hR).bind fun _ => (h _).bind fun _ => (h _).bind fun _ => .pure _
  · exact (steady_freshId hR).bind fun _ => (h _).bind fun _ => .pure _
  · exact (steady_freshenBindings hR h _ _).bind fun _ => (h _).bind fun _ => .pure _
  · exact (h _).bind fun _ => .pure _
  · exact (h _).bind fun _ => (h _).bind fun _ => .pure _
  · exact (h _).bind fun _ => (h _).bind fun _ => .pure _
  · exact (h _).bind fun _ => (h _).bind fun _ => .pure _
  · exact (steady_mapTerms h _).bind fun _ => .pure _
  · exact (steady_mapTerms h _).bind fun _ => .pure _
  · exact (h _).bind fun _ => (h _).bind fun _ => .pure _
  · exact (h _).bind fun _ => (h _).bind fun _ => (h _).bind fun _ => .pure _
  · exact (h _).bind fun _ => (h _).bind fun _ => (h _).bind fun _ => .pure _
  · exact .pure _

/-- A renaming takes the same names. -/
theorem steady_freshen {gas gas' : Nat} (hgas : gas ≤ gas') (t : Term) :
    Steady R (freshen gas t) (freshen gas' t) := by
  induction gas generalizing gas' t with
  | zero => exact steady_exhausted _
  | succ gas ih =>
    obtain ⟨gas', rfl⟩ : ∃ n, gas' = n + 1 := ⟨gas' - 1, by omega⟩
    exact steady_charged hR (steady_freshenInner hR (ih (by omega)) t)

end Freshen

/-! ## 3. Weak head normal forms -/

section Whnf

variable {whnf whnf' : Term → M Term} (h : ∀ t, Steady R (whnf t) (whnf' t))
include h

/-- An argument is consumed alike. -/
theorem steady_consume {gas gas' : Nat} (hgas : gas ≤ gas') (function arg : Term)
    (residual : Bool) :
    Steady R (consume whnf gas function arg residual)
      (consume whnf' gas' function arg residual) := by
  induction gas generalizing gas' function arg residual with
  | zero => exact steady_exhausted _
  | succ gas ih =>
    obtain ⟨gas', rfl⟩ : ∃ n, gas' = n + 1 := ⟨gas' - 1, by omega⟩
    refine (h function).bind fun function => ?_
    split
    · exact .pure _
    · refine (h arg).bind fun arg => ?_
      split
      · exact .ite ((h _).bind fun _ => .pure _) (ih (by omega) _ _ _)
      · exact .pure _
    · exact .pure _
    · exact .ite (.pure _) (.pure _)

theorem steady_consumeArgs {gas gas' : Nat} (hgas : gas ≤ gas') (result : Term)
    (progressed : Bool) (args : List Term) :
    Steady R (consumeArgs whnf gas result progressed args)
      (consumeArgs whnf' gas' result progressed args) := by
  induction args generalizing result progressed with
  | nil => exact .pure _
  | cons arg args ih =>
    refine (steady_consume h hgas _ _ _).bind fun next => ?_
    split <;> exact ih _ _

include hR

/-- `Steady` for a computation that starts `n` frames above `e₀`, which it may give back. -/
def Framed {α : Type} (R : Engine → Engine → Prop) (e₀ : Engine) (n : Nat) (m m' : M α) : Prop :=
  ∀ e e' a e₁, R e e' → e₀.depth + n ≤ e.depth → Returns m e a e₁ →
    ∃ e₁', Returns m' e' a e₁' ∧ R e₁ e₁'

omit hR h in
theorem Framed.of_steady {α : Type} {e₀ : Engine} {n : Nat} {m m' : M α} (hm : Steady R m m') :
    Framed R e₀ n m m' := fun e e' a e₁ he _ hrun => hm.more e e' a e₁ he hrun

omit hR h in
/-- It may come before one that closes them. -/
theorem Framed.bind {α β : Type} {e₀ : Engine} {n : Nat} {m m' : M α} {k k' : α → M β}
    (hm : Steady R m m') (hk : ∀ a, Framed R e₀ n (k a) (k' a)) :
    Framed R e₀ n (m >>= k) (m' >>= k') := by
  intro e e' b e₂ he hdepth hrun
  obtain ⟨a, e₁, hma, hkb⟩ := returns_bind.mp hrun
  obtain ⟨e₁', hma', he₁⟩ := hm.more e e' a e₁ he hma
  have hlevel := hm.fixes e
  rw [stateAfter, hma] at hlevel
  have hsame : e₁.depth = e.depth := congrArg Prod.fst hlevel
  obtain ⟨e₂', hkb', he₂⟩ := hk a e₁ e₁' b e₂ he₁ (hsame ▸ hdepth) hkb
  exact ⟨e₂', returns_bind.mpr ⟨a, e₁', hma', hkb'⟩, he₂⟩

omit h in
/-- One frame more is opened. -/
theorem Framed.enter {α : Type} {e₀ : Engine} {n : Nat} {k k' : M α}
    (hk : Framed R e₀ (n + 1) k k') :
    Framed R e₀ n (do enter; k) (do enter; k') := by
  intro e e' a e₂ he hdepth hrun
  obtain ⟨_, e₁, henter, hk₁⟩ := returns_bind.mp hrun
  obtain ⟨hlimit, rfl⟩ := returns_enter.mp henter
  obtain ⟨hlimit', he₁⟩ := hR.enter e e' he hlimit
  obtain ⟨e₂', hk₂, he₂⟩ := hk _ _ a e₂ he₁ (Nat.succ_le_succ hdepth) hk₁
  exact ⟨e₂', returns_bind.mpr ⟨(), _, returns_enter.mpr ⟨hlimit', rfl⟩, hk₂⟩, he₂⟩

omit h in
/-- One is closed, which the outer state allows. -/
theorem Framed.leave {α : Type} {e₀ e₀' : Engine} (h₀ : R e₀ e₀') {n : Nat} {k k' : M α}
    (hk : Framed R e₀ n k k') :
    Framed R e₀ (n + 1) (do leave; k) (do leave; k') := by
  intro e e' a e₂ he hdepth hrun
  obtain ⟨_, e₁, hleave, hk₁⟩ := returns_bind.mp hrun
  obtain rfl := returns_leave.mp hleave
  have he₁ := hR.leave e₀ e₀' e e' h₀ he (by omega)
  obtain ⟨e₂', hk₂, he₂⟩ := hk _ _ a e₂ he₁ (by show e₀.depth + n ≤ e.depth - 1; omega) hk₁
  exact ⟨e₂', returns_bind.mpr ⟨(), _, returns_leave.mpr rfl, hk₂⟩, he₂⟩

/-- The frames that a field application has taken. -/
def frames : List PatternArgument → Nat
  | [] => 0
  | .EndFields :: pending => frames pending + 1
  | .Value _ :: pending => frames pending

omit hR h in
/-- Values open no frame. -/
@[simp] theorem frames_values (args : List Term) (pending : List PatternArgument) :
    frames (args.map .Value ++ pending) = frames pending := by
  induction args with
  | nil => rfl
  | cons a args ih => exact ih

/-- **The patterns close the frames of the fields that are pending.** -/
theorem framed_namedPatternsInner {e₀ e₀' : Engine} (h₀ : R e₀ e₀') (original : Term)
    (extra : List Term) {gas gas' : Nat} (hgas : gas ≤ gas') (body : Term)
    (pending : List PatternArgument) :
    Framed R e₀ (frames pending) (namedPatternsInner whnf original extra gas body pending)
      (namedPatternsInner whnf' original extra gas' body pending) := by
  induction gas generalizing gas' body pending with
  | zero => cases pending <;> exact .of_steady (steady_exhausted _)
  | succ gas ih =>
    obtain ⟨gas', rfl⟩ : ∃ n, gas' = n + 1 := ⟨gas' - 1, by omega⟩
    have hle : gas ≤ gas' := by omega
    rcases pending with _ | ⟨argument | _, pending⟩
    · exact .of_steady (.pure _)
    · show Framed R e₀ (frames pending) _ _
      refine .bind (steady_step hR) fun _ => ?_
      split
      · exact ih hle _ pending
      · rename_i constructor arm fallback
        refine .bind (h _) fun scrutinee => ?_
        split
        · rename_i name args
          split
          · refine .bind (steady_step hR) fun _ => ?_
            have hnext := ih hle arm (args.map .Value ++ .EndFields :: pending)
            rw [frames_values] at hnext
            exact .enter hR hnext
          · exact ih hle fallback (.Value (.Ctr name args) :: pending)
        · exact .of_steady (.pure _)
      · exact .of_steady (.pure _)
      · exact ih hle _ (.Value argument :: pending)
      · exact ih hle _ (.Value argument :: pending)
      · refine .bind (h _) fun evidence => ?_
        split
        · exact ih hle _ (.Value argument :: pending)
        · exact .of_steady (.pure _)
      · exact .of_steady (.pure _)
    · exact .leave hR h₀ (ih hle _ _)

/-- The patterns of a call never make or drop a memo. -/
theorem memo_namedPatternsInner (original : Term) (extra : List Term) (gas : Nat) (body : Term)
    (pending : List PatternArgument) :
    Follows (fun e => e.normalizationMemo.isSome) (fun _ _ => False)
      (namedPatternsInner whnf original extra gas body pending)
      (namedPatternsInner whnf original extra gas body pending) := by
  have hstep := (steady_step hR).alone Prod.snd
  have hw (t : Term) := (h t).alone Prod.snd
  have henter : Follows (fun e => e.normalizationMemo.isSome) (fun _ _ => False) enter enter :=
    follows_update enter_run (fun _ => rfl) fun _ _ he => he.elim
  induction gas generalizing body pending with
  | zero => cases pending <;> exact .throw _ _
  | succ gas ih =>
    rcases pending with _ | ⟨argument | _, pending⟩
    · exact .pure _
    · refine hstep.bind fun _ => ?_
      split
      · exact ih _ _
      · refine (hw _).bind fun scrutinee => ?_
        split
        · exact .ite (hstep.bind fun _ => henter.bind fun _ => ih _ _) (ih _ _)
        · exact .pure _
      · exact .pure _
      · exact ih _ _
      · exact ih _ _
      · refine (hw _).bind fun evidence => ?_
        split
        · exact ih _ _
        · exact .pure _
      · exact .pure _
    · exact Follows.bind (.modify (fun _ => rfl) fun _ _ he => he.elim) fun _ => ih _ _

/-- A call gives back the frames of its patterns, however it ends. -/
theorem steady_namedPatterns {gas gas' : Nat} (hgas : gas ≤ gas') (original body : Term)
    (args : List Term) (arity : Nat) :
    Steady R (namedPatterns whnf gas original body args arity)
      (namedPatterns whnf' gas' original body args arity) := by
  have hmemo := memo_namedPatternsInner hR h original (args.drop arity) gas body
    ((args.take arity).map .Value)
  refine ⟨fun e => ?_, fun e e' a e₂ he hrun => ?_⟩
  · have hframe := stateAfter_ensuring
      (namedPatternsInner whnf original (args.drop arity) gas body ((args.take arity).map .Value))
      (fun e' => { e' with depth := e.depth }) e
    exact (congrArg Engine.level hframe).trans (Prod.ext rfl (hmemo.fixes e))
  · replace hrun : Returns (namedPatterns whnf gas original body args arity) e a e₂ := hrun
    simp only [namedPatterns, returns_bind, returns_get, returns_ensuring] at hrun
    obtain ⟨_, _, ⟨rfl, rfl⟩, e₁, hinner, rfl⟩ := hrun
    have hframed := framed_namedPatternsInner hR h he original (args.drop arity) hgas body
      ((args.take arity).map .Value)
    have hnone : frames ((args.take arity).map .Value) = 0 := by
      simpa [frames] using frames_values (args.take arity) []
    rw [hnone] at hframed
    obtain ⟨e₁', hinner', he₁⟩ := hframed _ e' a e₁ he (Nat.le_refl _) hinner
    refine ⟨_, ?_, hR.restore _ e' _ _ he he₁⟩
    show Returns (namedPatterns whnf' gas' original body args arity) e' a _
    simp only [namedPatterns, returns_bind, returns_get, returns_ensuring]
    exact ⟨e', e', ⟨rfl, rfl⟩, e₁', hinner', rfl⟩

/-- A definition is unfolded on both sides, or on none. -/
theorem steady_namedCall {gas gas' : Nat} (hgas : gas ≤ gas') (value : Term)
    (definition : DefDecl) (args : List Term) :
    Steady R (namedCall whnf gas value definition args)
      (namedCall whnf' gas' value definition args) := by
  unfold namedCall
  split
  · exact .ite ((steady_freshen hR hgas _).bind fun _ => steady_namedPatterns hR h hgas _ _ _ _)
      (.pure _)
  · exact .pure _

theorem steady_whnfSpine {gas gas' : Nat} (hgas : gas ≤ gas') (value : Term) :
    Steady R (whnfSpine whnf gas value) (whnfSpine whnf' gas' value) := by
  unfold whnfSpine
  split
  · refine .read (fun e => ?_) fun e e' he => by rw [(hR.declared e e' he).1]
    split
    · exact steady_namedCall hR h hgas _ _ _
    · exact .pure _
  · refine .ite (.pure _) ((h _).bind fun _ => (steady_consumeArgs h hgas _ _ _).bind fun _ => ?_)
    exact .ite (.pure _) (.pure _)

/-- One turn of the evaluation. -/
theorem steady_whnfTurn {gas gas' : Nat} (hgas : gas ≤ gas') (value : Term) :
    Steady R (whnfTurn whnf gas value) (whnfTurn whnf' gas' value) := by
  unfold whnfTurn
  split
  · refine .read (fun e => ?_) fun e e' he => by rw [(hR.aliased e e' id he).1]
    split <;> exact .pure _
  · exact .pure _
  · exact .pure _
  · refine (h _).bind fun a => ?_
    split
    · exact .pure _
    · exact .pure _
    · exact (h _).bind fun _ => .pure _
  · refine (h _).bind fun evidence => ?_
    split <;> exact .pure _
  · refine .read (fun e => ?_) fun e e' he => by rw [(hR.declared e e' he).2.1]
    split
    · exact .pure _
    · exact steady_whnfSpine hR h hgas _
  · refine .read (fun e => ?_) fun e e' he => by rw [(hR.declared e e' he).2.1]
    split
    · exact .pure _
    · exact steady_whnfSpine hR h hgas _
  · exact steady_whnfSpine hR h hgas _
  · exact .pure _

/-- The turns may be more. -/
theorem steady_whnfInner {gas gas' turns turns' : Nat} (hgas : gas ≤ gas') (hturns : turns ≤ turns')
    (value : Term) :
    Steady R (whnfInner whnf gas turns value) (whnfInner whnf' gas' turns' value) := by
  induction turns generalizing turns' value with
  | zero => exact steady_exhausted _
  | succ turns ih =>
    obtain ⟨turns', rfl⟩ : ∃ n, turns' = n + 1 := ⟨turns' - 1, by omega⟩
    refine (steady_whnfTurn hR h hgas _).bind fun flow => ?_
    split
    · exact .pure _
    · exact (steady_step hR).bind fun _ => ih (by omega) _

end Whnf

/-! ## 4. Comparison -/

theorem steady_both {a a' b b' : M Bool} (ha : Steady R a a') (hb : Steady R b b') :
    Steady R (both a b) (both a' b') := ha.bind fun _ => .ite hb (.pure _)

section Compare

variable {whnf whnf' : Term → M Term} {compare compare' : Comparison → Term → Term → M Bool}
  (hw : ∀ t, Steady R (whnf t) (whnf' t))
  (h : ∀ mode a b, Steady R (compare mode a b) (compare' mode a b))
include h

theorem steady_compareArgs (xs ys : List Term) :
    Steady R (compareArgs compare xs ys) (compareArgs compare' xs ys) := by
  induction xs generalizing ys with
  | nil => cases ys <;> exact .pure _
  | cons x xs ih =>
    cases ys with
    | nil => exact .pure _
    | cons y ys => exact steady_both (h _ _ _) (ih ys)

theorem steady_compareList (xs ys : List Term) :
    Steady R (compareList compare xs ys) (compareList compare' xs ys) :=
  .ite (.pure _) (steady_compareArgs h _ _)

include hw in
theorem steady_fitsKind (a b g h' : Term) :
    Steady R (fitsKind whnf compare a b g h') (fitsKind whnf' compare' a b g h') := by
  refine (hw _).bind fun g => (hw _).bind fun h' => ?_
  split
  · exact .pure _
  · exact .pure _
  · exact .pure _
  · exact steady_both (h _ _ _) (h _ _ _)
  · exact (h _ _ _).bind fun _ => .ite (.pure _) (h _ _ _)
  · exact h _ _ _

include hR

/-- Two function types are compared under one fresh binder. -/
theorem steady_compareAll (mode : Comparison) (aq : Quant) (ai : Nat) (ad ab : Term) (bq : Quant)
    (bi : Nat) (bd bb : Term) :
    Steady R (compareAll compare mode aq ai ad ab bq bi bd bb)
      (compareAll compare' mode aq ai ad ab bq bi bd bb) :=
  .ite (.pure _) (steady_both (h _ _ _) ((steady_freshId hR).bind fun _ => h _ _ _))

include hw

/-- Two heads are compared by their kind. -/
theorem steady_compareHeads (mode : Comparison) (a b : Term) :
    Steady R (compareHeads whnf compare mode a b) (compareHeads whnf' compare' mode a b) := by
  unfold compareHeads
  split
  any_goals exact .pure _
  · exact .ite (h _ _ _) (steady_fitsKind hw h _ _ _ _)
  · exact steady_compareAll hR h _ _ _ _ _ _ _ _ _
  · exact steady_both (h _ _ _) (h _ _ _)
  · exact steady_both (h _ _ _) (h _ _ _)
  · exact .ite (.pure _) (steady_compareList h _ _)
  · exact .ite (steady_compareList h _ _) (.pure _)
  · exact .ite (steady_both (h _ _ _) (h _ _ _)) (.pure _)
  · exact steady_both (h _ _ _) (steady_both (h _ _ _) (h _ _ _))
  · exact steady_both (h _ _ _) (steady_both (h _ _ _) (h _ _ _))

/-- One level of the comparison, given that of the parts. -/
theorem steady_compareInner (mode : Comparison) (a b : Term) :
    Steady R (compareInner whnf compare mode a b) (compareInner whnf' compare' mode a b) := by
  refine (steady_ptrEq hR _ _).bind fun _ => .ite (.pure _) ?_
  refine (hw _).bind fun a => (hw _).bind fun b => (steady_ptrEq hR _ _).bind fun _ => ?_
  refine .ite (.pure _) (.ite ?_ (steady_compareHeads hR hw h _ _ _))
  exact (steady_freshId hR).bind fun _ => h _ _ _

end Compare

/-! ## 5. Structural descent -/

section Descent

include hR

theorem steady_stripDescentAliases {gas gas' : Nat} (hgas : gas ≤ gas') (value : Term) :
    Steady R (stripDescentAliases gas value) (stripDescentAliases gas' value) := by
  induction gas generalizing gas' value with
  | zero => exact steady_exhausted _
  | succ gas ih =>
    obtain ⟨gas', rfl⟩ : ∃ n, gas' = n + 1 := ⟨gas' - 1, by omega⟩
    have hle : gas ≤ gas' := by omega
    refine (steady_step hR).bind fun _ => ?_
    split
    · exact ih hle _
    · refine .read (fun e => ?_) fun e e' he => by rw [(hR.aliased e e' id he).1]
      split
      · exact ih hle _
      · exact .pure _
    · exact .pure _

omit hR in
/-- The fields of a constructor are compared in the same order. -/
theorem steady_descendFields {descend descend' : Term → Term → M Ordering}
    (h : ∀ a p, Steady R (descend a p) (descend' a p)) (order : Ordering) (xs ys : List Term) :
    Steady R (descendFields descend order xs ys) (descendFields descend' order xs ys) := by
  induction xs generalizing order ys with
  | nil => cases ys <;> exact .pure _
  | cons x xs ih =>
    cases ys with
    | nil => exact .pure _
    | cons y ys => exact (h x y).bind fun _ => .ite (.pure _) (ih _ _)

omit hR in
theorem steady_descendSame {descend descend' : Term → Term → M Ordering}
    (h : ∀ a p, Steady R (descend a p) (descend' a p)) (a : Term) (pn : String) (px : List Term) :
    Steady R (descendSame descend a pn px) (descendSame descend' a pn px) := by
  unfold descendSame
  split
  · exact .ite (steady_descendFields h _ _ _) (.pure _)
  · exact .pure _

omit hR in
theorem steady_descendInto {descend descend' : Term → Term → M Ordering}
    (h : ∀ a p, Steady R (descend a p) (descend' a p)) (a : Term) (fields : List Term) :
    Steady R (descendInto (descend a) fields) (descendInto (descend' a) fields) := by
  induction fields with
  | nil => exact .pure _
  | cons field fields ih => exact (h a field).bind fun _ => .ite ih (.pure _)

/-- The order of an argument and its column is the same. -/
theorem steady_descend {gas gas' : Nat} (hgas : gas ≤ gas') (quant : Quant) (arg column : Term) :
    Steady R (descend gas quant arg column) (descend gas' quant arg column) := by
  induction gas generalizing gas' quant arg column with
  | zero => exact steady_exhausted _
  | succ gas ih =>
    obtain ⟨gas', rfl⟩ : ∃ n, gas' = n + 1 := ⟨gas' - 1, by omega⟩
    have hle : gas ≤ gas' := by omega
    refine steady_charged hR (.ite (.pure _) ?_)
    refine (steady_stripDescentAliases hR hle _).bind fun a => ?_
    refine (steady_stripDescentAliases hR hle _).bind fun p => ?_
    split
    · split
      · exact .ite (.pure _) (.pure _)
      · exact .pure _
    · exact (steady_descendSame (ih hle .Lone) _ _ _).bind fun _ =>
        .ite (steady_descendInto (ih hle .Lone) _ _) (.pure _)
    · exact .pure _

theorem steady_descentOrder {gas gas' : Nat} (hgas : gas ≤ gas') (order : Ordering)
    (args cols : List Term) (quants : List Quant) :
    Steady R (descentOrder gas order args cols quants)
      (descentOrder gas' order args cols quants) := by
  induction args generalizing order cols quants with
  | nil => cases cols <;> cases quants <;> exact .pure _
  | cons arg args ih =>
    rcases cols with _ | ⟨col, cols⟩
    · exact .pure _
    · rcases quants with _ | ⟨quant, quants⟩
      · exact .pure _
      · exact .ite (.pure _) ((steady_descend hR hgas _ _ _).bind fun _ => ih _ _ _)

/-- A call that descends does so with more resources. -/
theorem steady_guardSelfCall {gas gas' : Nat} (hgas : gas ≤ gas') (lhs : Lhs) (name : String)
    (args : List Term) :
    Steady R (guardSelfCall gas lhs name args) (guardSelfCall gas' lhs name args) :=
  .ite ((steady_descentOrder hR hgas _ _ _ _).bind fun _ => .ite (.pure _) (steady_fail _ _))
    (.pure _)

/-- A reference has the same type. -/
theorem steady_inferReference {gas gas' : Nat} (hgas : gas ≤ gas') (lhs : Lhs) (name : String)
    (demand : Quant) (args : List Term) :
    Steady R (inferReference gas lhs name demand args)
      (inferReference gas' lhs name demand args) := by
  refine .read (fun e => ?_) fun e e' he => ?_
  · split
    · exact .ite (steady_fail _ _) (.pure _)
    · split
      · exact steady_fail _ _
      · refine .ite ((steady_guardSelfCall hR hgas _ _ _).bind fun _ => ?_) (.pure _)
        exact .ite (steady_fail _ _) (.pure _)
  · obtain ⟨hdefs, hadts, hforeign, hnumeric, hopaque⟩ := hR.declared e e' he
    rw [hdefs, hadts, hforeign, hnumeric, hopaque]

end Descent

/-! ## 6. Checking -/

theorem steady_checkUsage (b : Binder Term) (uses : Uses) :
    Steady R (checkUsage b uses) (checkUsage b uses) := .ite (.pure _) (steady_fail _ _)

theorem steady_checkUsages (binders : List (Binder Term)) (uses : Uses) :
    Steady R (checkUsages binders uses) (checkUsages binders uses) := by
  induction binders generalizing uses with
  | nil => exact .pure _
  | cons b binders ih => exact (steady_checkUsage _ _).bind fun _ => ih _

section Rules

include hR

theorem steady_adtOf (value : Term) : Steady R (adtOf value) (adtOf value) := by
  unfold adtOf
  split
  · refine .read (fun e => ?_) fun e e' he => by rw [(hR.declared e e' he).2.1]
    split
    · exact steady_fail _ _
    · exact .ite (steady_fail _ _) (.ite (steady_fail _ _) (.pure _))
  · exact steady_failShowing _ _ _

theorem steady_freshFields (quant : Quant) (fields : List (Binder Term))
    (substitutions : List (Nat × Term)) :
    Steady R (freshFields quant fields substitutions) (freshFields quant fields substitutions) := by
  induction fields generalizing substitutions with
  | nil => exact .pure _
  | cons field fields ih =>
    exact (steady_freshId hR).bind fun _ => (ih _).bind fun _ => .pure _

/-- Two records of calls that cannot be told apart. -/
structure Callees.Steady (R : Engine → Engine → Prop) (calls calls' : Callees) : Prop where
  gas : calls.gas ≤ calls'.gas
  whnf : ∀ t, Kernel.Steady R (calls.whnf t) (calls'.whnf t)
  compare : ∀ mode a b, Kernel.Steady R (calls.compare mode a b) (calls'.compare mode a b)

/-- Two pairs of rules that cannot be told apart. -/
structure Rules.Steady (R : Engine → Engine → Prop) (rules rules' : Rules) : Prop where
  infer : ∀ lhs value demand Γ arguments, Kernel.Steady R
    (rules.infer lhs value demand Γ arguments) (rules'.infer lhs value demand Γ arguments)
  check : ∀ lhs value demand ty Γ,
    Kernel.Steady R (rules.check lhs value demand ty Γ) (rules'.check lhs value demand ty Γ)

variable {calls calls' : Callees} (hc : calls.Steady R calls')
include hc

/-- A context is dead on both sides. -/
theorem steady_contextDead (binders : List (Binder Term)) :
    Steady R (contextDead calls binders) (contextDead calls' binders) := by
  induction binders with
  | nil => exact .pure _
  | cons b binders ih =>
    refine .ite ih ((hc.whnf _).bind fun t => ?_)
    split
    · exact (steady_adtOf hR _).bind fun _ => .ite (.pure _) ih
    · exact ih

theorem steady_checkEfq (adt : AdtDecl) (Γ : Context) :
    Steady R (checkEfq calls adt Γ) (checkEfq calls' adt Γ) :=
  .ite (.pure _)
    ((steady_contextDead hR hc _).bind fun _ => .ite (.pure _) (steady_fail _ _))

omit hR in
theorem steady_checkRfl (ty : Term) : Steady R (checkRfl calls ty) (checkRfl calls' ty) := by
  refine (hc.whnf _).bind fun t => ?_
  split
  · refine (hc.compare _ _ _).bind fun _ => .ite (.pure _) ?_
    exact ⟨fun _ => rfl, fun _ _ _ _ _ h => by cases h⟩
  · exact steady_mismatch _ _ _

variable {rules rules' : Rules} (h : rules.Steady R rules')
include h

omit hR in
/-- The arguments are checked along the telescope. -/
theorem steady_checkArguments (lhs : Lhs) (demand : Quant) (Γ : Context) (telescope : Term)
    (uses : Uses) (args : List Term) :
    Steady R (checkArguments calls rules lhs demand Γ telescope uses args)
      (checkArguments calls' rules' lhs demand Γ telescope uses args) := by
  induction args generalizing telescope uses with
  | nil => exact .pure _
  | cons arg args ih =>
    refine (hc.whnf _).bind fun t => ?_
    split
    · exact (h.check _ _ _ _ _).bind fun _ => ih _ _
    · exact steady_fail _ _

omit hR in
theorem steady_inferApp (lhs : Lhs) (f x : Term) (demand : Quant) (Γ : Context)
    (arguments : List Term) :
    Steady R (inferApp calls rules lhs f x demand Γ arguments)
      (inferApp calls' rules' lhs f x demand Γ arguments) := by
  refine (h.infer _ _ _ _ _).bind fun function => (hc.whnf _).bind fun t => ?_
  split
  · exact (h.check _ _ _ _ _).bind fun _ => .pure _
  · exact steady_failShowing _ _ _

/-- One level of the inference, given the rules for the parts. -/
theorem steady_inferInner (lhs : Lhs) (value : Term) (demand : Quant) (Γ : Context)
    (arguments : List Term) :
    Steady R (inferInner calls rules lhs value demand Γ arguments)
      (inferInner calls' rules' lhs value demand Γ arguments) := by
  have hk := h.check
  unfold inferInner
  split
  · split
    · exact .pure _
    · exact steady_failShowing _ _ _
  · exact steady_inferReference hR hc.gas _ _ _ _
  · exact steady_inferReference hR hc.gas _ _ _ _
  · exact (hk _ _ _ _ _).bind fun _ => .pure _
  · exact .pure _
  · exact .pure _
  · exact (hk _ _ _ _ _).bind fun _ => (hk _ _ _ _ _).bind fun _ => .pure _
  · exact (hk _ _ _ _ _).bind fun _ => .ite (steady_fail _ _)
      ((hk _ _ _ _ _).bind fun _ => .pure _)
  · exact h.infer _ _ _ _ _
  · exact steady_inferApp hc h _ _ _ _ _ _
  · exact (steady_adtOf hR _).bind fun _ => (steady_checkArguments hc h _ _ _ _ _ _).bind fun _ =>
      .ite (steady_fail _ _) (.pure _)
  · exact (hk _ _ _ _ _).bind fun _ => (hk _ _ _ _ _).bind fun _ => (hk _ _ _ _ _).bind fun _ =>
      .pure _
  · exact (hk _ _ _ _ _).bind fun _ => (hk _ _ _ _ _).bind fun _ => .pure _
  · exact steady_fail _ _
  · exact steady_failShowing _ _ _

theorem steady_checkLam (lhs : Lhs) (name : String) (id : Nat) (body : Term) (demand : Quant)
    (ty : Term) (Γ : Context) :
    Steady R (checkLam calls rules lhs name id body demand ty Γ)
      (checkLam calls' rules' lhs name id body demand ty Γ) := by
  refine (hc.whnf _).bind fun t => ?_
  split
  · exact (steady_freshId hR).bind fun _ => (h.check _ _ _ _ _).bind fun _ =>
      steady_checkUsage _ _
  · exact steady_mismatch _ _ _

omit hR hc in
theorem steady_letBindings (lhs : Lhs) (demand : Quant) (Γ : Context)
    (bindings : List (LetBinding Term)) (next : Context) (uses : Uses) :
    Steady R (letBindings rules lhs demand Γ bindings next uses)
      (letBindings rules' lhs demand Γ bindings next uses) := by
  induction bindings generalizing next uses with
  | nil => exact .pure _
  | cons b bindings ih =>
    exact .ite (steady_fail _ _) ((h.infer _ _ _ _ _).bind fun _ =>
      (h.check _ _ _ _ _).bind fun _ => (ih _ _).bind fun _ => .pure _)

omit hc in
theorem steady_checkLet (lhs : Lhs) (bindings : List (LetBinding Term)) (body : Term)
    (demand : Quant) (ty : Term) (Γ : Context) :
    Steady R (checkLet rules lhs bindings body demand ty Γ)
      (checkLet rules' lhs bindings body demand ty Γ) := by
  have haliases (g : (Nat → Option Term) → Nat → Option Term) :
      Steady R (modify fun e => { e with aliases := g e.aliases })
        (modify fun e => { e with aliases := g e.aliases }) :=
    .modify (fun _ => rfl) fun e e' he => (hR.aliased e e' g he).2
  refine (steady_letBindings h _ _ _ _ _ _).bind fun _ => ?_
  refine (haliases (insertAliases bindings)).bind fun _ => (h.check _ _ _ _ _).bind fun _ => ?_
  exact (haliases (removeAliases bindings)).bind fun _ => (steady_checkUsages _ _).bind fun _ =>
    .pure _

theorem steady_checkCtr (lhs : Lhs) (name : String) (args : List Term) (demand : Quant) (t : Term)
    (Γ : Context) :
    Steady R (checkCtr calls rules lhs name args demand t Γ)
      (checkCtr calls' rules' lhs name args demand t Γ) := by
  refine (steady_adtOf hR _).bind fun adt => ?_
  split
  · exact steady_fail _ _
  · refine .ite (steady_fail _ _) ?_
    split
    · exact (steady_checkArguments hc h _ _ _ _ _ _).bind fun _ => .pure _
    · exact steady_failShowing _ _ _

theorem steady_checkRwt (lhs : Lhs) (evidence motive body : Term) (demand : Quant) (ty : Term)
    (Γ : Context) :
    Steady R (checkRwt calls rules lhs evidence motive body demand ty Γ)
      (checkRwt calls' rules' lhs evidence motive body demand ty Γ) := by
  refine (h.infer _ _ _ _ _).bind fun inferred => (hc.whnf _).bind fun t => ?_
  split
  · refine (steady_freshId hR).bind fun _ => (steady_freshId hR).bind fun _ =>
      (h.check _ _ _ _ _).bind fun _ => (hc.compare _ _ _).bind fun _ =>
      .ite ?_ (steady_mismatch _ _ _)
    exact (h.check _ _ _ _ _).bind fun _ => .pure _
  · exact steady_fail _ _

omit hc in
/-- A match checks its arm and its fallback. -/
theorem steady_checkMat (lhs : Lhs) (constructor : String) (arm fallback : Term)
    (demand quant : Quant) (x : String) (id : Nat) (body : Term) (adt : AdtDecl)
    (args : List Term) (excluded : List String) (Γ : Context) :
    Steady R
      (checkMat rules lhs constructor arm fallback demand quant x id body adt args excluded Γ)
      (checkMat rules' lhs constructor arm fallback demand quant x id body adt args excluded
        Γ) := by
  unfold checkMat
  split
  · exact steady_fail _ _
  · exact (steady_freshFields hR _ _ _).bind fun _ => (h.check _ _ _ _ _).bind fun _ =>
      (h.check _ _ _ _ _).bind fun _ => .pure _

theorem steady_matchRule (lhs : Lhs) (demand quant : Quant) (x : String) (id : Nat) (body : Term)
    (adt : AdtDecl) (args : List Term) (excluded : List String) (Γ : Context) (value : Term) :
    Steady R (matchRule calls rules lhs demand quant x id body adt args excluded Γ value)
      (matchRule calls' rules' lhs demand quant x id body adt args excluded Γ value) := by
  unfold matchRule
  split
  · exact steady_checkMat hR h _ _ _ _ _ _ _ _ _ _ _ _ _
  · exact steady_checkEfq hR hc _ _

theorem steady_checkMatch (lhs : Lhs) (value : Term) (demand : Quant) (ty : Term) (Γ : Context) :
    Steady R (checkMatch calls rules lhs value demand ty Γ)
      (checkMatch calls' rules' lhs value demand ty Γ) := by
  refine (hc.whnf _).bind fun t => ?_
  split
  · refine .ite (steady_fail _ _)
      ((hc.whnf _).bind fun _ => (steady_adtOf hR _).bind fun _ => ?_)
    split
    · exact steady_matchRule hR hc h _ _ _ _ _ _ _ _ _ _ _
    · exact steady_failShowing _ _ _
  · exact steady_mismatch _ _ _

/-- One level of the check, given the rules for the parts. -/
theorem steady_checkInner (lhs : Lhs) (value : Term) (demand : Quant) (ty : Term) (Γ : Context) :
    Steady R (checkInner calls rules lhs value demand ty Γ)
      (checkInner calls' rules' lhs value demand ty Γ) := by
  unfold checkInner
  split
  · exact steady_fail _ _
  · exact steady_checkLam hR hc h _ _ _ _ _ _ _
  · exact steady_checkLet hR h _ _ _ _ _ _
  · exact (hc.whnf _).bind fun _ => steady_checkCtr hR hc h _ _ _ _ _ _
  · exact steady_checkMatch hR hc h _ _ _ _ _
  · exact steady_checkMatch hR hc h _ _ _ _ _
  · exact steady_checkRfl hc _
  · exact steady_checkRwt hR hc h _ _ _ _ _ _ _
  · exact (steady_step hR).bind fun _ => (steady_inferInner hR hc h _ _ _ _ _).bind fun _ =>
      (hc.compare _ _ _).bind fun _ => .ite (.pure _) (steady_mismatch _ _ _)

end Rules

end Functions

/-! ## 7. The functions with the memo -/

/-- A closed relation of two engines with one memo. -/
structure ClosedMemo (R : Engine → Engine → Prop) : Prop extends Closed R where
  memo : ∀ e e', R e e' → e'.normalizationMemo = e.normalizationMemo
  entry : ∀ e e', R e e' → e'.pointers.entry e'.fuel = e.pointers.entry e.fuel
  remember : ∀ e e' memo, R e e' →
    R { e with normalizationMemo := memo } { e' with normalizationMemo := memo }

/-- What the memo has is read through the pointers of its level only. -/
theorem memoGet_congr {p p' : Pointers} {n n' : Nat} (h : p'.entry n' = p.entry n) (value : Term)
    (entries : List (Term × Term)) : memoGet p' n' value entries = memoGet p n value entries := by
  induction entries with
  | nil => rfl
  | cons entry entries ih =>
    rw [memoGet, memoGet, h, ih]

/-- The level of the memo stays. -/
theorem memoInsert_level (value head : Term) (e : Engine) :
    (memoInsert value head e).level = e.level := by
  unfold memoInsert
  split
  · rename_i hmemo
    simp [Engine.level, hmemo]
  · rfl

section Memo

variable {R : Engine → Engine → Prop} (hR : ClosedMemo R)
include hR

/-- What is found in the memo is the same. -/
theorem steady_cached (value : Term) : Steady R (cached value) (cached value) := by
  refine .read (fun e => ?_) fun e e' he => ?_
  · split <;> exact .pure _
  · rw [hR.memo e e' he]
    split
    · rw [memoGet_congr (hR.entry e e' he)]
    · rfl

/-- What is put into it as well. -/
theorem steady_memoInsert (value head : Term) :
    Steady R (modify (memoInsert value head)) (modify (memoInsert value head)) := by
  refine .modify (memoInsert_level value head) fun e e' he => ?_
  unfold memoInsert
  rw [hR.memo e e' he]
  split
  · exact hR.remember e e' _ he
  · exact he

/-- A shared evaluation is read from the memo, or put into it. -/
theorem steady_shared {m m' : M Term} (hm : Steady R m m') (value : Term) :
    Steady R (shared value m) (shared value m') := by
  refine (steady_cached hR value).bind fun found => ?_
  split
  · exact .pure _
  · exact hm.bind fun _ => (steady_memoInsert hR _ _).bind fun _ => .pure _

/-- The evaluation with the memo. -/
theorem steady_memoWhnf {gas gas' : Nat} (hgas : gas ≤ gas') (t : Term) :
    Steady R (Memo.whnf gas t) (Memo.whnf gas' t) := by
  induction gas generalizing gas' t with
  | zero => exact steady_exhausted _
  | succ gas ih =>
    obtain ⟨gas', rfl⟩ : ∃ n, gas' = n + 1 := ⟨gas' - 1, by omega⟩
    have hle : gas ≤ gas' := by omega
    exact steady_charged hR.toClosed
      (steady_shared hR (steady_whnfInner hR.toClosed (ih hle) hle hle t) t)

theorem steady_memoCompare {gas gas' : Nat} (hgas : gas ≤ gas') (mode : Comparison) (a b : Term) :
    Steady R (Memo.compare gas mode a b) (Memo.compare gas' mode a b) := by
  induction gas generalizing gas' mode a b with
  | zero => exact steady_exhausted _
  | succ gas ih =>
    obtain ⟨gas', rfl⟩ : ∃ n, gas' = n + 1 := ⟨gas' - 1, by omega⟩
    have hle : gas ≤ gas' := by omega
    exact steady_charged hR.toClosed
      (steady_compareInner hR.toClosed (steady_memoWhnf hR hle) (ih hle) _ _ _)

theorem steady_memoCalls {gas gas' : Nat} (hgas : gas ≤ gas') :
    (Memo.calls gas).Steady R (Memo.calls gas') :=
  ⟨hgas, steady_memoWhnf hR hgas, steady_memoCompare hR hgas⟩

theorem steady_memoRules {gas gas' : Nat} (hgas : gas ≤ gas') :
    (Memo.rules gas).Steady R (Memo.rules gas') := by
  induction gas generalizing gas' with
  | zero => exact ⟨fun _ _ _ _ _ => steady_exhausted _, fun _ _ _ _ _ => steady_exhausted _⟩
  | succ gas ih =>
    obtain ⟨gas', rfl⟩ : ∃ n, gas' = n + 1 := ⟨gas' - 1, by omega⟩
    have hle : gas ≤ gas' := by omega
    have hc := steady_memoCalls hR hle
    exact ⟨fun _ _ _ _ _ => steady_charged hR.toClosed
        (steady_inferInner hR.toClosed hc (ih hle) _ _ _ _ _),
      fun _ _ _ _ _ => steady_charged hR.toClosed
        (steady_checkInner hR.toClosed hc (ih hle) _ _ _ _ _)⟩

/-- One level of the normal form, given that of the parts. -/
theorem steady_normalizeInner {whnf whnf' normalize normalize' : Term → M Term}
    (hw : ∀ t, Steady R (whnf t) (whnf' t)) (h : ∀ t, Steady R (normalize t) (normalize' t))
    (t : Term) :
    Steady R (normalizeInner whnf normalize t) (normalizeInner whnf' normalize' t) := by
  have hfresh := steady_freshId hR.toClosed
  refine (hw t).bind fun v => ?_
  split
  · exact (h _).bind fun _ => .pure _
  · exact (h _).bind fun _ => (h _).bind fun _ => .pure _
  · exact hfresh.bind fun _ => (h _).bind fun _ => (h _).bind fun _ => .pure _
  · exact hfresh.bind fun _ => (h _).bind fun _ => .pure _
  · exact (h _).bind fun _ => (h _).bind fun _ => .pure _
  · exact (h _).bind fun _ => (h _).bind fun _ => (h _).bind fun _ => .pure _
  · exact (steady_mapTerms h _).bind fun _ => .pure _
  · exact (steady_mapTerms h _).bind fun _ => .pure _
  · exact (h _).bind fun _ => (h _).bind fun _ => .pure _
  · exact (h _).bind fun _ => (h _).bind fun _ => (h _).bind fun _ => .pure _
  · exact .pure _

omit hR in
/-- A memo is made for the outermost call only. -/
theorem withMemo_run {α : Type} (m : M α) (e : Engine) : withMemo m e =
    if e.normalizationMemo.isSome then m e
    else ensuring m (fun e => { e with normalizationMemo := none })
      { e with normalizationMemo := some [] } := by
  show (if e.normalizationMemo.isSome then m else _ : M α) e = _
  split <;> rfl

/-- The memo of an outermost call is gone when it ends, well or badly. -/
theorem steady_withMemo {α : Type} {m m' : M α} (hm : Steady R m m') :
    Steady R (withMemo m) (withMemo m') := by
  refine ⟨fun e => ?_, fun e e' a e₂ he h => ?_⟩
  · rw [stateAfter, withMemo_run]
    by_cases hmemo : e.normalizationMemo.isSome
    · rw [if_pos hmemo]
      exact hm.fixes e
    · rw [if_neg hmemo]
      have hframe := stateAfter_ensuring m (fun e => { e with normalizationMemo := none })
        { e with normalizationMemo := some [] }
      have hlevel := hm.fixes { e with normalizationMemo := some [] }
      rw [stateAfter] at hframe
      rw [hframe]
      have hdepth : (stateAfter m _).depth = e.depth := congrArg Prod.fst hlevel
      exact Prod.ext hdepth (by simpa [Engine.level] using hmemo)
  · have hsame := hR.memo e e' he
    rw [withMemo_run] at h
    by_cases hmemo : e.normalizationMemo.isSome
    · rw [if_pos hmemo] at h
      obtain ⟨e₂', hrun, he₂⟩ := hm.more e e' a e₂ he h
      exact ⟨e₂', by rw [withMemo_run, hsame, if_pos hmemo, hrun], he₂⟩
    · rw [if_neg hmemo] at h
      obtain ⟨e₁, hrun, rfl⟩ := returns_ensuring.mp h
      obtain ⟨e₁', hrun', he₁⟩ := hm.more _ _ a e₁ (hR.remember e e' (some []) he) hrun
      refine ⟨{ e₁' with normalizationMemo := none }, ?_, hR.remember e₁ e₁' none he₁⟩
      rw [withMemo_run, hsame, if_neg hmemo]
      exact returns_ensuring.mpr ⟨e₁', hrun', rfl⟩

/-- **The normal form with the memo.** -/
theorem steady_normalize {gas gas' : Nat} (hgas : gas ≤ gas') (t : Term) :
    Steady R (normalize gas t) (normalize gas' t) := by
  induction gas generalizing gas' t with
  | zero => exact steady_exhausted _
  | succ gas ih =>
    obtain ⟨gas', rfl⟩ : ∃ n, gas' = n + 1 := ⟨gas' - 1, by omega⟩
    have hle : gas ≤ gas' := by omega
    exact steady_charged hR.toClosed
      (steady_withMemo hR (steady_normalizeInner hR (steady_memoWhnf hR hle) (ih hle) t))

end Memo

/-! ## 8. More resources -/

/-- More fuel moves the questions that are asked at a fuel. -/
def Pointers.shifted (p : Pointers) (k : Nat) : Pointers where
  same n := p.same (n - k)
  sound n := p.sound (n - k)
  entry n := p.entry (n - k)
  entrySound n := p.entrySound (n - k)

/-- The same state with `k` more fuel and at `j` levels less. -/
def Engine.enriched (e : Engine) (k j : Nat) : Engine :=
  { e with fuel := e.fuel + k, depth := e.depth - j, pointers := e.pointers.shifted k }

/-- An engine and the same with more resources. -/
def Richer (k j : Nat) (e e' : Engine) : Prop := e' = e.enriched k j ∧ j ≤ e.depth

/-- Engines that differ in fuel and depth have the same memo. -/
theorem closedMemo_richer (k j : Nat) : ClosedMemo (Richer k j) where
  step := by
    rintro e _ ⟨rfl, hj⟩ hfuel
    have hsub : e.fuel + k - 1 = e.fuel - 1 + k := by omega
    exact ⟨by simp [Engine.enriched]; omega, by simp [Engine.enriched, hsub], hj⟩
  enter := by
    rintro e _ ⟨rfl, hj⟩ hdepth
    have hsub : e.depth - j + 1 = e.depth + 1 - j := by omega
    exact ⟨by simp [Engine.enriched]; omega, by simp [Engine.enriched, hsub],
      Nat.le_succ_of_le hj⟩
  leave := by
    rintro e₀ _ e _ ⟨rfl, hj⟩ ⟨rfl, -⟩ hlt
    have hsub : e.depth - j - 1 = e.depth - 1 - j := by omega
    exact ⟨by simp [Engine.enriched, hsub], Nat.le_sub_one_of_lt (Nat.lt_of_le_of_lt hj hlt)⟩
  restore := by
    rintro e₀ _ e _ ⟨rfl, hj⟩ ⟨rfl, -⟩
    exact ⟨rfl, hj⟩
  fresh := by
    rintro e _ ⟨rfl, hj⟩
    exact ⟨rfl, rfl, hj⟩
  aliased := by
    rintro e _ g ⟨rfl, hj⟩
    exact ⟨rfl, rfl, hj⟩
  declared := by
    rintro e _ ⟨rfl, -⟩
    exact ⟨rfl, rfl, rfl, rfl, rfl⟩
  same := by
    rintro e _ ⟨rfl, -⟩
    show e.pointers.same (e.fuel + k - k) = _
    rw [Nat.add_sub_cancel]
  memo := by
    rintro e _ ⟨rfl, -⟩
    rfl
  entry := by
    rintro e _ ⟨rfl, -⟩
    show e.pointers.entry (e.fuel + k - k) = _
    rw [Nat.add_sub_cancel]
  remember := by
    rintro e _ memo ⟨rfl, hj⟩
    exact ⟨rfl, hj⟩

/-- `m'` does on more resources what `m` does, and `m` gives back what it took, however it ends. -/
structure Resourceful {α : Type} (m m' : M α) : Prop where
  more : ∀ (e e₁ : Engine) (a : α), Returns m e a e₁ → ∀ k j, j ≤ e.depth →
    ∃ e₁', Returns m' (e.enriched k j) a e₁' ∧ e₁'.freshId = e₁.freshId
  depth : ∀ e, (stateAfter m e).depth = e.depth
  memo : ∀ e, (stateAfter m e).normalizationMemo.isSome = e.normalizationMemo.isSome

theorem resourceful_of_steady {α : Type} {m m' : M α} (h : ∀ k j, Steady (Richer k j) m m') :
    Resourceful m m' := by
  refine ⟨fun e e₁ a hrun k j hj => ?_, fun e => ?_, fun e => ?_⟩
  · obtain ⟨_, hrun', rfl, -⟩ := (h k j).more e _ a e₁ ⟨rfl, hj⟩ hrun
    exact ⟨_, hrun', rfl⟩
  · exact congrArg Prod.fst ((h 0 0).fixes e)
  · exact congrArg Prod.snd ((h 0 0).fixes e)

/-- **More resources never change a result.**  What succeeds, succeeds with any more fuel at any
smaller depth, with the same result and the same next number; and however it ends, the depth is
given back, and there is a memo exactly if there was one. -/
theorem more_resources {gas gas' : Nat} (hgas : gas ≤ gas') :
    (∀ t, Resourceful (Memo.whnf gas t) (Memo.whnf gas' t)) ∧
    (∀ t, Resourceful (normalize gas t) (normalize gas' t)) ∧
    (∀ mode a b, Resourceful (Memo.compare gas mode a b) (Memo.compare gas' mode a b)) ∧
    (∀ lhs value demand Γ arguments, Resourceful (Memo.infer gas lhs value demand Γ arguments)
      (Memo.infer gas' lhs value demand Γ arguments)) ∧
    (∀ lhs value demand ty Γ, Resourceful (Memo.check gas lhs value demand ty Γ)
      (Memo.check gas' lhs value demand ty Γ)) ∧
    ∀ t, Resourceful (freshen gas t) (freshen gas' t) := by
  have hR := closedMemo_richer
  refine ⟨fun t => ?_, fun t => ?_, fun mode a b => ?_, fun lhs value demand Γ arguments => ?_,
    fun lhs value demand ty Γ => ?_, fun t => ?_⟩
  · exact resourceful_of_steady fun k j => steady_memoWhnf (hR k j) hgas t
  · exact resourceful_of_steady fun k j => steady_normalize (hR k j) hgas t
  · exact resourceful_of_steady fun k j => steady_memoCompare (hR k j) hgas mode a b
  · exact resourceful_of_steady fun k j => (steady_memoRules (hR k j) hgas).infer _ _ _ _ _
  · exact resourceful_of_steady fun k j => (steady_memoRules (hR k j) hgas).check _ _ _ _ _
  · exact resourceful_of_steady fun k j => steady_freshen (hR k j).toClosed hgas t

/-- `(λx. x) Qnt`. -/
def identityCall : Term := .App (.Lam "x" 0 (.Var "x" 0)) .Qnt

/-- An engine three levels deep. -/
def deepEngine : Engine := { Engine.empty .distinct (fun _ => "") 1 with fuel := 20, depth := 3 }

theorem more_resources_identity :
    ∃ v e', Returns (normalize 9 identityCall) (deepEngine.enriched 5 2) v e' := by
  have hrun : (result (normalize 4 identityCall) deepEngine).map isLam = some false := by
    decide +kernel
  obtain ⟨v, e₁, hreturns, -⟩ := returns_of_result hrun
  obtain ⟨e', hmore, -⟩ := ((more_resources (show 4 ≤ 9 by decide)).2.1 identityCall).more
    deepEngine e₁ v hreturns 5 2 (by decide)
  exact ⟨v, e', hmore⟩

/-! ## 9. Without a memo -/

/-- An engine without a memo, and itself. -/
def Memoless (e e' : Engine) : Prop := e' = e ∧ e.normalizationMemo = none

/-- So do engines without one. -/
theorem closed_memoless : Closed Memoless where
  step := by
    rintro e _ ⟨rfl, hmemo⟩ hfuel
    exact ⟨hfuel, rfl, hmemo⟩
  enter := by
    rintro e _ ⟨rfl, hmemo⟩ hdepth
    exact ⟨hdepth, rfl, hmemo⟩
  leave := by
    rintro _ _ e _ - ⟨rfl, hmemo⟩ -
    exact ⟨rfl, hmemo⟩
  restore := by
    rintro e₀ _ e _ ⟨rfl, -⟩ ⟨rfl, hmemo⟩
    exact ⟨rfl, hmemo⟩
  fresh := by
    rintro e _ ⟨rfl, hmemo⟩
    exact ⟨rfl, rfl, hmemo⟩
  aliased := by
    rintro e _ g ⟨rfl, hmemo⟩
    exact ⟨rfl, rfl, hmemo⟩
  declared := by
    rintro e _ ⟨rfl, -⟩
    exact ⟨rfl, rfl, rfl, rfl, rfl⟩
  same := by
    rintro e _ ⟨rfl, -⟩
    rfl

/-- Without a memo nothing is found. -/
theorem returns_cached_memoless {e : Engine} (hmemo : e.normalizationMemo = none) (t : Term) :
    Returns (cached t) e none e := by
  unfold cached
  refine returns_bind.2 ⟨e, e, returns_get.2 ⟨rfl, rfl⟩, ?_⟩
  split
  · rename_i hsome
    rw [hmemo] at hsome
    cases hsome
  · exact returns_pure.2 ⟨rfl, rfl⟩

/-- And nothing is kept. -/
theorem memoInsert_memoless {e : Engine} (hmemo : e.normalizationMemo = none) (value head : Term) :
    memoInsert value head e = e := by
  unfold memoInsert
  rw [hmemo]
  split
  · rename_i hsome
    cases hsome
  · rfl

/-- Without a memo nothing is found in it and nothing is kept. -/
theorem returns_shared_memoless {e : Engine} (hmemo : e.normalizationMemo = none) {m : M Term}
    (hm : ∀ v e₁, Returns m e v e₁ → e₁.normalizationMemo = none) (t v : Term) (e' : Engine) :
    Returns (shared t m) e v e' ↔ Returns m e v e' := by
  rw [shared, returns_bind]
  constructor
  · rintro ⟨found, e₁, hfound, h⟩
    obtain ⟨rfl, rfl⟩ := (returns_cached_memoless hmemo t).unique hfound
    simp only [returns_bind, returns_modify, returns_pure] at h
    obtain ⟨w, e₂, hrun, _, _, rfl, rfl, rfl⟩ := h
    rwa [memoInsert_memoless (hm w e₂ hrun)]
  · intro hrun
    refine ⟨none, e, returns_cached_memoless hmemo t, ?_⟩
    simp only [returns_bind, returns_modify, returns_pure]
    exact ⟨v, e', hrun, (), e', memoInsert_memoless (hm v e' hrun) t v, rfl, rfl⟩

/-- Two functions with the same runs on engines without a memo. -/
structure Agree {α : Type} (m m' : M α) : Prop where
  forth : Steady Memoless m m'
  back : Steady Memoless m' m

/-- Two computations that agree return the same. -/
theorem Agree.returns_iff {α : Type} {m m' : M α} (h : Agree m m') {e e' : Engine} {a : α}
    (hmemo : e.normalizationMemo = none) : Returns m e a e' ↔ Returns m' e a e' := by
  constructor
  · intro hrun
    obtain ⟨_, hrun', rfl, -⟩ := h.forth.more e e a e' ⟨rfl, hmemo⟩ hrun
    exact hrun'
  · intro hrun
    obtain ⟨_, hrun', rfl, -⟩ := h.back.more e e a e' ⟨rfl, hmemo⟩ hrun
    exact hrun'

/-- A run on an engine without a memo leaves one without. -/
theorem memoless_of_returns {α : Type} {m m' : M α} (hm : Steady Memoless m m') {e : Engine}
    (hmemo : e.normalizationMemo = none) (a : α) (e₁ : Engine) (hrun : Returns m e a e₁) :
    e₁.normalizationMemo = none := by
  obtain ⟨_, -, -, hnone⟩ := hm.more e e a e₁ ⟨rfl, hmemo⟩ hrun
  exact hnone

/-- The evaluation is the same without a memo. -/
theorem agree_whnf (gas : Nat) (t : Term) : Agree (whnf gas t) (Memo.whnf gas t) := by
  induction gas generalizing t with
  | zero => exact ⟨steady_exhausted _, steady_exhausted _⟩
  | succ gas ih =>
    have hR := closed_memoless
    have hforth := steady_whnfInner hR (fun t => (ih t).forth) (Nat.le_refl gas) (Nat.le_refl gas) t
    have hback := steady_whnfInner hR (fun t => (ih t).back) (Nat.le_refl gas) (Nat.le_refl gas) t
    have hrich := closedMemo_richer 0 0
    have hfixes := (steady_shared hrich (steady_whnfInner hrich.toClosed
      (steady_memoWhnf hrich (Nat.le_refl gas)) (Nat.le_refl gas) (Nat.le_refl gas) t) t).fixes
    refine ⟨steady_charged hR ⟨hforth.fixes, ?_⟩, steady_charged hR ⟨hfixes, ?_⟩⟩
    · rintro _ e v e₁ ⟨rfl, hmemo⟩ hrun
      obtain ⟨e₁', hrun', he₁⟩ := hforth.more e e v e₁ ⟨rfl, hmemo⟩ hrun
      exact ⟨e₁', (returns_shared_memoless hmemo (memoless_of_returns hback hmemo) t v e₁').mpr
        hrun', he₁⟩
    · rintro _ e v e₁ ⟨rfl, hmemo⟩ hrun
      exact hback.more e e v e₁ ⟨rfl, hmemo⟩
        ((returns_shared_memoless hmemo (memoless_of_returns hback hmemo) t v e₁).mp hrun)

theorem agree_compare (gas : Nat) (mode : Comparison) (a b : Term) :
    Agree (compare gas mode a b) (Memo.compare gas mode a b) := by
  induction gas generalizing mode a b with
  | zero => exact ⟨steady_exhausted _, steady_exhausted _⟩
  | succ gas ih =>
    exact ⟨steady_charged closed_memoless (steady_compareInner closed_memoless
        (fun t => (agree_whnf gas t).forth) (fun _ _ _ => (ih _ _ _).forth) _ _ _),
      steady_charged closed_memoless (steady_compareInner closed_memoless
        (fun t => (agree_whnf gas t).back) (fun _ _ _ => (ih _ _ _).back) _ _ _)⟩

theorem agree_rules (gas : Nat) :
    (rules gas).Steady Memoless (Memo.rules gas) ∧
      (Memo.rules gas).Steady Memoless (rules gas) := by
  induction gas with
  | zero =>
    exact ⟨⟨fun _ _ _ _ _ => steady_exhausted _, fun _ _ _ _ _ => steady_exhausted _⟩,
      fun _ _ _ _ _ => steady_exhausted _, fun _ _ _ _ _ => steady_exhausted _⟩
  | succ gas ih =>
    have hR := closed_memoless
    have hforth : Callees.Steady Memoless gas (Memo.calls gas) :=
      ⟨Nat.le_refl _, fun t => (agree_whnf gas t).forth,
        fun _ _ _ => (agree_compare gas _ _ _).forth⟩
    have hback : Callees.Steady Memoless (Memo.calls gas) gas :=
      ⟨Nat.le_refl _, fun t => (agree_whnf gas t).back,
        fun _ _ _ => (agree_compare gas _ _ _).back⟩
    exact ⟨⟨fun _ _ _ _ _ => steady_charged hR (steady_inferInner hR hforth ih.1 _ _ _ _ _),
        fun _ _ _ _ _ => steady_charged hR (steady_checkInner hR hforth ih.1 _ _ _ _ _)⟩,
      fun _ _ _ _ _ => steady_charged hR (steady_inferInner hR hback ih.2 _ _ _ _ _),
      fun _ _ _ _ _ => steady_charged hR (steady_checkInner hR hback ih.2 _ _ _ _ _)⟩

/-- **The checker is the same with the memo and without**: a run on an engine without a memo is a
run of the functions that look for one. -/
theorem returns_memo_iff {gas : Nat} {e e' : Engine} (hmemo : e.normalizationMemo = none) :
    (∀ t v, Returns (whnf gas t) e v e' ↔ Returns (Memo.whnf gas t) e v e') ∧
    (∀ mode a b r, Returns (compare gas mode a b) e r e' ↔
      Returns (Memo.compare gas mode a b) e r e') ∧
    (∀ lhs value demand Γ arguments r, Returns (infer gas lhs value demand Γ arguments) e r e' ↔
      Returns (Memo.infer gas lhs value demand Γ arguments) e r e') ∧
    ∀ lhs value demand ty Γ u, Returns (check gas lhs value demand ty Γ) e u e' ↔
      Returns (Memo.check gas lhs value demand ty Γ) e u e' := by
  obtain ⟨hforth, hback⟩ := agree_rules gas
  refine ⟨fun t v => (agree_whnf gas t).returns_iff hmemo,
    fun mode a b r => (agree_compare gas mode a b).returns_iff hmemo,
    fun lhs value demand Γ arguments r => ?_, fun lhs value demand ty Γ u => ?_⟩
  · exact Agree.returns_iff ⟨hforth.infer _ _ _ _ _, hback.infer _ _ _ _ _⟩ hmemo
  · exact Agree.returns_iff ⟨hforth.check _ _ _ _ _, hback.check _ _ _ _ _⟩ hmemo

end TeamyBend.Kernel
