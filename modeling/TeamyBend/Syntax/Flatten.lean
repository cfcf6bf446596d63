/-
# Match compilation as a recursion

The driver of `surface.rs` keeps its recursion on an explicit stack.  `Flattens` is the recursion
itself: which core term a body or a match state becomes, with the counters before and after.

`flattenDriver_flattens` says that the driver computes nothing else.  A stack of saved work is read
as what remains to be done with a value (`Finishes`), pending nullary arms first, and one turn of
the driver keeps the reading.
-/
import TeamyBend.Syntax.Surface

namespace TeamyBend.Syntax

open Kernel

/-! ## 1. The recursion -/

/-- What is flattened: a body under some variables, or a match. -/
inductive Task where
  | body (vars : List Variable) (b : Body)
  | match_ (state : MatchState)

/-- The variables that the term takes. -/
def Task.vars : Task → List Variable
  | .body vars _ => vars
  | .match_ state => state.vars

/-- **Flattening**, as a recursion. -/
inductive Flattens : Task → Counters → Term → Counters → Prop where
  | reply {vars : List Variable} {value : Term} {c : Counters} :
      Flattens (.body vars (.Reply value)) c (closeOver vars value) c
  | match_ {vars : List Variable} {scrutinees : List Term} {rows : List (Row Body)}
      {t : Term} {c c' : Counters} (h : Flattens (.match_ ⟨scrutinees, rows, vars⟩) c t c') :
      Flattens (.body vars (.Match scrutinees rows)) c t c'
  | destructure {vars : List Variable} {name : String} {fields : List Pattern} {quant : Quant}
      {values : List Term} {inner : Body} {t : Term} {c c' : Counters}
      (h : Flattens (.match_ ⟨values, [⟨[.Constructor name fields], inner⟩], vars⟩) c t c') :
      Flattens (.body vars (.Local [.Constructor name fields] quant values inner)) c t c'
  | local_ {vars bindings : List Variable} {patterns : List Pattern} {quant : Quant}
      {values : List Term} {inner : Body} {tail t : Term} {c c' : Counters}
      (hb : localBindings patterns = .ok bindings)
      (h : Flattens (.body bindings inner) c tail c')
      (hf : finishLocal ⟨vars, bindings, quant, values⟩ tail = .ok t) :
      Flattens (.body vars (.Local patterns quant values inner)) c t c'
  | done {limit : Option Nat} {depth : Nat} {state : MatchState} {t : Term} {c c' : Counters}
      (hs : flattenMatchStep limit depth state c = .ok (.Done t, c')) :
      Flattens (.match_ state) c t c'
  | row {limit : Option Nat} {depth d : Nat} {state : MatchState} {r : Row Body}
      {rows : List (Row Body)} {t : Term} {c c' c'' : Counters}
      (hs : flattenMatchStep limit depth state c = .ok (.Body d, c'))
      (hr : state.rows = r :: rows) (h : Flattens (.body state.vars r.body) c' t c'') :
      Flattens (.match_ state) c t c''
  | column {limit : Option Nat} {depth : Nat} {state next : MatchState} {wrap : Option Variable}
      {t : Term} {c c' c'' : Counters}
      (hs : flattenMatchStep limit depth state c = .ok (.Continue next wrap, c'))
      (h : Flattens (.match_ next) c' t c'') :
      Flattens (.match_ state) c (wrap.elim t fun binder => binder.lambda t) c''
  | skip {limit : Option Nat} {depth : Nat} {state : MatchState} {binder : Variable}
      {t : Term} {c c' c'' : Counters}
      (hs : flattenMatchStep limit depth state c = .ok (.SkipBinder binder, c'))
      (h : Flattens (.match_ { state with vars := state.vars.tail }) c' t c'') :
      Flattens (.match_ state) c (binder.lambda t) c''
  | nullary {limit : Option Nat} {depth : Nat} {state next fallback : MatchState}
      {constructor : String} {arm rest : Term} {c c' c'' c''' : Counters}
      (hs : flattenMatchStep limit depth state c = .ok (.Nullary constructor next fallback, c'))
      (ha : Flattens (.match_ next) c' arm c'') (hf : Flattens (.match_ fallback) c'' rest c''') :
      Flattens (.match_ state) c (.Mat constructor arm rest) c'''
  | constructor {limit : Option Nat} {depth : Nat} {state next fallback : MatchState}
      {constructor : String} {arm rest : Term} {c c' c'' c''' : Counters}
      (hs : flattenMatchStep limit depth state c = .ok (.Constructor constructor next fallback, c'))
      (ha : Flattens (.match_ next) c' arm c'') (hf : Flattens (.match_ fallback) c'' rest c''') :
      Flattens (.match_ state) c (.Mat constructor arm rest) c'''

/-! ## 2. What the saved work still does -/

/-- The pending nullary arms of a call, and then `k`. -/
def FinishesPending (k : Term → Counters → Prop) :
    List (String × MatchState) → Term → Counters → Prop
  | [], value, c => k value c
  | (constructor, fallback) :: pending, value, c =>
    ∃ rest c', Flattens (.match_ fallback) c rest c' ∧
      FinishesPending k pending (.Mat constructor value rest) c'

/-- The saved work turns a value into the result. -/
def Finishes (result : Term × Counters) : List SavedMatch → Term → Counters → Prop
  | [], value, c => (value, c) = result
  | .Continue call wrap :: saved, value, c =>
    FinishesPending (Finishes result saved) call.pending
      (wrap.elim value fun binder => binder.lambda value) c
  | .Fallback parent constructor arm :: saved, value, c =>
    FinishesPending (Finishes result saved) parent.pending (.Mat constructor arm value) c
  | .Arm parent constructor fallback :: saved, value, c =>
    ∃ rest c', Flattens (.match_ fallback) c rest c' ∧
      FinishesPending (Finishes result saved) parent.pending (.Mat constructor value rest) c'
  | .BodyReturn call :: saved, value, c =>
    FinishesPending (Finishes result saved) call.pending value c
  | .Local frame :: saved, value, c =>
    ∃ value', finishLocal frame value = .ok value' ∧ Finishes result saved value' c

/-- The pending arms of the call a value comes from. -/
def pendingOf (parent : Option MatchCall) : List (String × MatchState) :=
  parent.elim [] MatchCall.pending

/-- What the work in hand and the saved work make of the driver's state. -/
def Completes (result : Term × Counters) (d : Driver) : Prop :=
  match d.current with
  | .Body body vars _ =>
    ∃ value c, Flattens (.body vars body) d.counters value c ∧ Finishes result d.saved value c
  | .Match call =>
    ∃ value c, Flattens (.match_ call.state) d.counters value c ∧
      FinishesPending (Finishes result d.saved) call.pending value c
  | .Value value parent =>
    FinishesPending (Finishes result d.saved) (pendingOf parent) value d.counters

/-! ## 3. The driver -/

/-- A turn on a body. -/
theorem bodyStep_completes {result : Term × Counters} {limit : Option Nat} {d d' : Driver}
    {body : Body} {vars : List Variable} {depth : Nat} (hcur : d.current = .Body body vars depth)
    (hstep : bodyStep limit d body vars depth = .ok d') (h : Completes result d') :
    Completes result d := by
  simp only [Completes, hcur]
  unfold bodyStep at hstep
  split at hstep
  · cases hstep
  split at hstep
  · cases hstep
  · cases hstep
    exact ⟨_, _, .reply, h⟩
  · cases hstep
    obtain ⟨value, c, hflat, hfin⟩ := h
    exact ⟨value, c, .match_ hflat, hfin⟩
  · cases hstep
    obtain ⟨value, c, hflat, hfin⟩ := h
    exact ⟨value, c, .destructure hflat, hfin⟩
  · rename_i patterns quant values inner _
    simp only [enterLocal] at hstep
    cases hb : localBindings patterns with
    | error e =>
      rw [hb] at hstep
      cases hstep
    | ok bindings =>
      rw [hb] at hstep
      cases hstep
      obtain ⟨tail, c, hflat, value, hfinish, hfin⟩ := h
      exact ⟨value, c, .local_ hb hflat hfinish, hfin⟩

/-- A turn on a match. -/
theorem matchStep_completes {result : Term × Counters} {limit : Option Nat} {d d' : Driver}
    {call : MatchCall} (hcur : d.current = .Match call)
    (hstep : matchStep limit d call = .ok d') (h : Completes result d') : Completes result d := by
  simp only [Completes, hcur]
  unfold matchStep at hstep
  split at hstep
  · cases hstep
  cases hs : flattenMatchStep limit call.depth call.state d.counters with
  | error e =>
    rw [hs] at hstep
    cases hstep
  | ok out =>
    obtain ⟨step, c⟩ := out
    rw [hs] at hstep
    cases step with
    | Done value =>
      cases hstep
      exact ⟨value, c, .done hs, h⟩
    | Body depth =>
      simp only [afterStep] at hstep
      split at hstep
      · cases hstep
      · rename_i r rows hr
        cases hstep
        obtain ⟨value, c', hflat, hfin⟩ := h
        exact ⟨value, c', .row hs hr hflat, hfin⟩
    | Continue next wrap =>
      cases hstep
      obtain ⟨value, c', hflat, hfin⟩ := h
      exact ⟨_, c', .column hs hflat, hfin⟩
    | SkipBinder binder =>
      cases hstep
      obtain ⟨value, c', hflat, hfin⟩ := h
      exact ⟨_, c', .skip hs hflat, hfin⟩
    | Nullary constructor next fallback =>
      cases hstep
      obtain ⟨arm, c', harm, rest, c'', hrest, hfin⟩ := h
      exact ⟨_, c'', .nullary hs harm hrest, hfin⟩
    | Constructor constructor next fallback =>
      cases hstep
      obtain ⟨arm, c', harm, rest, c'', hrest, hfin⟩ := h
      exact ⟨_, c'', .constructor hs harm hrest, hfin⟩

/-- A turn that hands a value to the saved work. -/
theorem resume_completes {result : Term × Counters} {d d' : Driver} {value : Term}
    {work : SavedMatch} {saved : List SavedMatch} (hstep : resume d value saved work = .ok d')
    (h : Completes result d') : Finishes result (work :: saved) value d.counters := by
  cases work with
  | Arm parent constructor fallback =>
    cases hstep
    exact h
  | Fallback parent constructor arm =>
    cases hstep
    exact h
  | Continue parent wrap =>
    cases hstep
    exact h
  | BodyReturn parent =>
    cases hstep
    exact h
  | Local frame =>
    simp only [resume] at hstep
    cases hf : finishLocal frame value with
    | error e =>
      rw [hf] at hstep
      cases hstep
    | ok value' =>
      rw [hf] at hstep
      cases hstep
      exact ⟨value', hf, h⟩

/-- A value with no pending arm goes to the saved work. -/
theorem valueStep_saved {d : Driver} {value : Term} {parent : Option MatchCall}
    (h : pendingOf parent = []) :
    valueStep d value parent =
      match d.saved with
      | [] => .ok (.inr value)
      | work :: saved => (resume d value saved work).map .inl := by
  rcases parent with _ | ⟨state, _ | ⟨p, pending⟩, depth⟩
  · rfl
  · rfl
  · cases h

/-- A turn on a value. -/
theorem valueStep_completes {result : Term × Counters} {d d' : Driver} {value : Term}
    {parent : Option MatchCall} (hcur : d.current = .Value value parent)
    (hstep : valueStep d value parent = .ok (.inl d')) (h : Completes result d') :
    Completes result d := by
  simp only [Completes, hcur]
  cases hp : pendingOf parent with
  | nil =>
    rw [valueStep_saved hp] at hstep
    cases hsaved : d.saved with
    | nil =>
      rw [hsaved] at hstep
      cases hstep
    | cons work saved =>
      simp only [hsaved] at hstep
      cases hr : resume d value saved work with
      | error e =>
        rw [hr] at hstep
        cases hstep
      | ok d'' =>
        rw [hr] at hstep
        cases hstep
        exact resume_completes hr h
  | cons p pending =>
    rcases parent with _ | ⟨state, _ | ⟨q, rest⟩, depth⟩
    · cases hp
    · cases hp
    · cases hp
      cases hstep
      exact h

/-- **One turn of the driver** keeps what its state completes to. -/
theorem driverStep_completes {result : Term × Counters} {limit : Option Nat} {d d' : Driver}
    (hstep : driverStep limit d = .ok (.inl d')) (h : Completes result d') :
    Completes result d := by
  unfold driverStep at hstep
  split at hstep
  · rename_i body vars depth hcur
    cases hb : bodyStep limit d body vars depth with
    | error e =>
      rw [hb] at hstep
      cases hstep
    | ok d'' =>
      rw [hb] at hstep
      cases hstep
      exact bodyStep_completes hcur hb h
  · rename_i call hcur
    cases hm : matchStep limit d call with
    | error e =>
      rw [hm] at hstep
      cases hstep
    | ok d'' =>
      rw [hm] at hstep
      cases hstep
      exact matchStep_completes hcur hm h
  · rename_i value parent hcur
    exact valueStep_completes hcur hstep h

/-- The last turn returns the value that is left. -/
theorem driverStep_value {limit : Option Nat} {d : Driver} {value : Term}
    (hstep : driverStep limit d = .ok (.inr value)) : Completes (value, d.counters) d := by
  unfold driverStep at hstep
  split at hstep
  · rename_i body vars depth hcur
    cases hb : bodyStep limit d body vars depth <;> rw [hb] at hstep <;> cases hstep
  · rename_i call hcur
    cases hm : matchStep limit d call <;> rw [hm] at hstep <;> cases hstep
  · rename_i v parent hcur
    simp only [Completes, hcur]
    cases hp : pendingOf parent with
    | nil =>
      rw [valueStep_saved hp] at hstep
      cases hsaved : d.saved with
      | nil =>
        rw [hsaved] at hstep
        cases hstep
        rfl
      | cons work saved =>
        simp only [hsaved] at hstep
        cases hr : resume d v saved work <;> rw [hr] at hstep <;> cases hstep
    | cons p pending =>
      rcases parent with _ | ⟨state, _ | ⟨q, rest⟩, depth⟩
      · cases hp
      · cases hp
      · cases hstep

/-- **The driver computes the recursion.** -/
theorem flattenDriver_completes {limit : Option Nat} {turns : Nat} {d : Driver}
    {result : Term × Counters} (h : flattenDriver limit turns d = some (.ok result)) :
    Completes result d := by
  induction turns generalizing d with
  | zero => cases h
  | succ turns ih =>
    simp only [flattenDriver] at h
    split at h
    · cases h
    · rename_i d' hstep
      exact driverStep_completes hstep (ih h)
    · rename_i value hstep
      cases h
      exact driverStep_value hstep

/-- A body that the driver flattens. -/
theorem flattenDriver_flattens {limit : Option Nat} {turns depth : Nat} {body : Body}
    {vars : List Variable} {c c' : Counters} {t : Term}
    (h : flattenDriver limit turns ⟨.Body body vars depth, [], c⟩ = some (.ok (t, c'))) :
    Flattens (.body vars body) c t c' := by
  obtain ⟨value, c'', hflat, hfin⟩ := flattenDriver_completes h
  cases hfin
  exact hflat

end TeamyBend.Syntax
