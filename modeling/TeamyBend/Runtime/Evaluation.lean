/-
# Evaluating an entry

`Program::evaluate` applies a definition to its arguments and reads the value off as a term: each
thunk is forced and the fields of its constructor are read in turn.  Forcing one field may collect,
so the fields are roots of the caller meanwhile (`Machine::with_roots`).

The count of output nodes is handed on from field to field.
-/
import TeamyBend.Runtime.RunReferences

namespace TeamyBend.Runtime.Evaluator

open Kernel (Term)
open Library (Finishes exists_of_yields)

/-! ## 1. The entry -/

/-- `STEPS`. -/
def steps : Nat := 2000000

/-- `OUTPUT_DEPTH`. -/
def outputDepth : Nat := 96

/-- `OUTPUT_NODES`. -/
def outputNodes : Nat := 16384

/-- `Machine::new`. -/
def Machine.new : Machine where
  arena := []
  environments := [some ⟨none, []⟩]
  freeThunks := []
  freeEnvironments := []
  callerRoots := []
  hostRoots := []
  allocationDebt := 0
  globals := []
  remaining := steps

/-- `self.gc.roots.truncate(start)`. -/
def Machine.truncateRoots (m : Machine) (start : Nat) : Machine :=
  { m with callerRoots := m.callerRoots.drop (m.callerRoots.length - start) }

variable (setting : Setting)

/-- `Machine::with_roots`. -/
def withRoots {α : Type} (ids : List ThunkId) (action : M α) : M α := fun m =>
  if setting.limits.arena - m.callerRoots.length < ids.length then
    .error (.new "data runtime caller root budget exhausted") m
  else
    match action { m with callerRoots := ids.reverse ++ m.callerRoots } with
    | .ok a m' => .ok a (m'.truncateRoots m.callerRoots.length)
    | .error err m' => .error err (m'.truncateRoots m.callerRoots.length)

/-- What is reported of a value that is no data. -/
def Value.refused : Value → String
  | .Erased => "data runtime result contains an erased type or proof"
  | .Request _ _ _ => "data runtime cannot materialize a foreign effect request"
  | .Handle .Channel _ _ => "data runtime cannot materialize an opaque channel handle"
  | .Handle .File _ _ => "data runtime cannot materialize an opaque file handle"
  | .Handle _ _ _ => "data runtime cannot materialize an opaque network handle"
  | _ => "data runtime result contains a function"

/-- The fields of a constructor, one after the other. -/
def materializeAll (materialize : ThunkId → Nat → M (Term × Nat)) :
    List ThunkId → Nat → M (List Term × Nat)
  | [], nodes => return ([], nodes)
  | field :: fields, nodes => do
    let (arg, nodes) ← materialize field nodes
    let (args, nodes) ← materializeAll materialize fields nodes
    return (arg :: args, nodes)

/-- A constructor from its fields. -/
def materializeFields (materialize : ThunkId → Nat → M (Term × Nat)) (value : Value) (nodes : Nat) :
    M (Term × Nat) := do
  let (name, fields) ← constructorValue setting value
  let (args, nodes) ← withRoots setting fields (materializeAll materialize fields nodes)
  return (.Ctr name args, nodes)

/-- `Machine::materialize`, for at most so many levels. -/
def materialize : Nat → ThunkId → Nat → M (Term × Nat)
  | 0, _, _ => do
    tick
    fail "data runtime output depth or node budget exhausted"
  | room + 1, thunk, nodes => do
    tick
    if outputNodes ≤ nodes then fail "data runtime output depth or node budget exhausted"
    else
      match ← force setting thunk with
      | .Constructor name fields =>
        materializeFields setting (materialize room) (.Constructor name fields) (nodes + 1)
      | .PackedNat value =>
        materializeFields setting (materialize room) (.PackedNat value) (nodes + 1)
      | .NatPrefix count tail =>
        materializeFields setting (materialize room) (.NatPrefix count tail) (nodes + 1)
      | .PackedWord wrapper bits =>
        materializeFields setting (materialize room) (.PackedWord wrapper bits) (nodes + 1)
      | .PackedBits bits width =>
        materializeFields setting (materialize room) (.PackedBits bits width) (nodes + 1)
      | value => fail value.refused

/-- The entry applied to its arguments. -/
def applyEntry (entry : ThunkId) : List Term → M ThunkId
  | [] => return entry
  | argument :: arguments => do
    let argument ← expression setting argument 0
    let entry ← allocate setting (.Application entry argument)
    applyEntry entry arguments

/-- `Program::evaluate`, on a machine. -/
def evaluate (name : String) (arguments : List Term) : M Term := do
  let entry ← reference setting name
  let entry ← applyEntry setting entry arguments
  let (value, _) ← materialize setting (outputDepth + 1) entry 0
  return value

/-! ## 2. No broken reference -/

section Proper

variable {setting : Setting} {m : Machine} {id : ThunkId}

/-- The empty machine is sane. -/
theorem new_sane : Machine.new.Sane := by
  have hvacant (id : ThunkId) : Machine.new.thunkAt id = none := rfl
  have hroot : Machine.new.Occupied (.Environment 0) := rfl
  refine ⟨?_, hroot, ?_, ?_, ?_, ⟨List.nodup_nil, fun id => by simp [Machine.new]⟩,
    ⟨List.nodup_nil, fun id => ?_⟩⟩
  · rintro x y ⟨nodes, hx, hy⟩
    cases x with
    | Thunk id => cases hx
    | Environment id =>
      cases id with
      | zero =>
        cases hx
        cases hy
      | succ id => cases hx
  · exact fun g hg => absurd hg List.not_mem_nil
  · exact fun id hid => absurd hid List.not_mem_nil
  · exact fun id hid => absurd hid List.not_mem_nil
  · cases id with
    | zero => simp [Machine.new]
    | succ id => simp [Machine.new]

/-- An action runs with its roots kept, and they are taken off again. -/
theorem withRoots_turns {α : Type} {ids : List ThunkId} {action : M α} (hm : m.Sane)
    (hids : m.Holds (ids.map .Thunk))
    (haction : ∀ m₁ : Machine, m₁.Sane → m₁.callerRoots = ids.reverse ++ m.callerRoots →
      Turns m₁ action fun _ _ => True) :
    Turns m (withRoots setting ids action) fun _ _ => True := by
  have hcallers : ∀ id ∈ ids.reverse ++ m.callerRoots, m.Occupied (.Thunk id) :=
    List.forall_mem_append.2
      ⟨fun id hid => holds_thunks.1 hids id (List.mem_reverse.1 hid), hm.callers⟩
  have hrooted : ({ m with callerRoots := ids.reverse ++ m.callerRoots } : Machine).Sane :=
    ⟨hm.edges, hm.root, hm.globals, hcallers, hm.hosts, hm.freeThunks, hm.freeEnvironments⟩
  have hrun := haction _ hrooted rfl
  by_cases hroom : setting.limits.arena - m.callerRoots.length < ids.length
  · exact Finishes.error (if_pos hroom) (by decide)
  have heq : withRoots setting ids action m = _ := if_neg hroom
  rcases hrun.cases with ⟨a, m', haction, ⟨hm', hroots⟩, -⟩ | ⟨err, m', haction, herr⟩
  · rw [haction] at heq
    have htruncated : (m'.truncateRoots m.callerRoots.length).callerRoots = m.callerRoots := by
      show m'.callerRoots.drop _ = _
      rw [hroots, List.length_append, Nat.add_sub_cancel, List.drop_left]
    refine Finishes.ok heq ⟨⟨⟨hm'.edges, hm'.root, hm'.globals, fun id hid => ?_, hm'.hosts,
      hm'.freeThunks, hm'.freeEnvironments⟩, htruncated⟩, trivial⟩
    rw [htruncated] at hid
    exact hm'.callers id (hroots ▸ List.mem_append_right _ hid)
  · rw [haction] at heq
    exact Finishes.error heq herr

theorem materializeAll_turns {one : ThunkId → Nat → M (Term × Nat)} {fields : List ThunkId}
    {nodes : Nat}
    (hone : ∀ (m : Machine) (id : ThunkId) (nodes : Nat), m.Sane → m.Occupied (.Thunk id) →
      Turns m (one id nodes) fun _ _ => True)
    (hm : m.Sane) (hfields : ∀ id ∈ fields, id ∈ m.callerRoots) :
    Turns m (materializeAll one fields nodes) fun _ _ => True := by
  induction fields generalizing m nodes with
  | nil => exact (Safe.pure hm trivial).turns
  | cons field fields ih =>
    obtain ⟨hfield, hrest⟩ := List.forall_mem_cons.1 hfields
    refine .bind (hone m field nodes hm (hm.callers field hfield)) fun _ m₁ hm₁ hcallers₁ _ => ?_
    refine .bind (ih hm₁ fun id hid => hcallers₁ ▸ hrest id hid) fun _ m₂ hm₂ _ _ => ?_
    exact (Safe.pure hm₂ trivial).turns

theorem materializeFields_turns {one : ThunkId → Nat → M (Term × Nat)} {value : Value} {nodes : Nat}
    (hone : ∀ (m : Machine) (id : ThunkId) (nodes : Nat), m.Sane → m.Occupied (.Thunk id) →
      Turns m (one id nodes) fun _ _ => True)
    (hm : m.Sane) (hvalue : m.Holds value.nodes) :
    Turns m (materializeFields setting one value nodes) fun _ _ => True := by
  refine .bind (constructorValue_safe hm hvalue).turns fun made m₁ hm₁ _ hfields => ?_
  refine .bind (withRoots_turns hm₁ hfields fun m₂ hm₂ hroots =>
    materializeAll_turns hone hm₂ fun id hid => ?_) fun _ m₂ hm₂ _ _ => ?_
  · rw [hroots]
    exact List.mem_append_left _ (List.mem_reverse.2 hid)
  · exact (Safe.pure hm₂ trivial).turns

theorem refused_proper (value : Value) : Proper (.new value.refused) := by
  unfold Value.refused
  split <;> decide

theorem tick_occupied {n : Node} (hm : m.Sane) (hn : m.Occupied n) :
    Turns m tick fun _ m' => m'.Occupied n := by
  have htick : Safe m tick fun _ m' => m'.Occupied n :=
    Finishes.imp (tick_safe hm) fun _ _ h => ⟨h.1, h.1.2.occupied _ hn⟩
  exact htick.turns

theorem materialize_turns {room nodes : Nat} (hm : m.Sane) (hid : m.Occupied (.Thunk id)) :
    Turns m (materialize setting room id nodes) fun _ _ => True := by
  induction room generalizing m id nodes with
  | zero => exact .bind (tick_occupied hm hid) fun _ _ _ _ _ => (Safe.fail (by decide)).turns
  | succ room ih =>
    have hfields {m : Machine} {value : Value} (hm : m.Sane) (hvalue : m.Holds value.nodes) :
        Turns m (materializeFields setting (materialize setting room) value (nodes + 1))
          fun _ _ => True :=
      materializeFields_turns (fun _ _ _ hm hid => ih hm hid) hm hvalue
    refine .bind (tick_occupied hm hid) fun _ m₁ hm₁ _ hid₁ => Finishes.ite
      (fun _ => (Safe.fail (by decide)).turns) fun _ => ?_
    refine Turns.bind (force_turns hm₁ hid₁) fun value m₂ hm₂ _ hvalue => ?_
    split
    · exact hfields hm₂ hvalue
    · exact hfields hm₂ hvalue
    · exact hfields hm₂ hvalue
    · exact hfields hm₂ hvalue
    · exact hfields hm₂ hvalue
    · exact (Safe.fail (refused_proper _)).turns

theorem applyEntry_safe {entry : ThunkId} {arguments : List Term} (hm : m.Sane)
    (hentry : m.Occupied (.Thunk entry)) :
    Safe m (applyEntry setting entry arguments) fun id m' => m'.Occupied (.Thunk id) := by
  induction arguments generalizing m entry with
  | nil => exact .pure hm hentry
  | cons argument arguments ih =>
    refine .bind (expression_safe hm hm.root) fun id m₁ hm₁ hext₁ hid => ?_
    refine .bind (allocate_safe hm₁ (by simpa [Thunk.nodes] using ⟨hext₁.occupied _ hentry, hid⟩))
      fun entry m₂ hm₂ _ hentry => ih hm₂ hentry

end Proper

/-- Where an evaluation comes to: it forces the entry, it goes on, and it forces the fields of what
it has forced, one after the other. -/
inductive Visits (setting : Setting) (name : String) (arguments : List Term) :
    Control × List Frame → Machine → Prop
  | entry {id : ThunkId} {m m' : Machine}
    (hentry : (do applyEntry setting (← reference setting name) arguments) Machine.new = .ok id m)
    (htick : tick m = .ok () m') : Visits setting name arguments (.Enter id, []) m'
  | advance {stand stand' : Control × List Frame} {m m' : Machine}
    (h : Visits setting name arguments stand m) (hstep : Advances setting stand m stand' m') :
    Visits setting name arguments stand' m'
  | field {control : Control} {frames : List Frame} {value : Value} {label : String}
    {before after : List ThunkId} {id : ThunkId} {room nodes : Nat} {done : List Term × Nat}
    {m m₁ m₂ m₃ m₄ : Machine} (h : Visits setting name arguments (control, frames) m)
    (hturn : turn setting control frames m = .ok (.Done value) m₁)
    (hvalue : constructorValue setting value m₁ = .ok (label, before ++ id :: after) m₂)
    (hbefore : materializeAll (materialize setting room) before nodes
      { m₂ with callerRoots := (before ++ id :: after).reverse ++ m₂.callerRoots } = .ok done m₃)
    (htick : tick m₃ = .ok () m₄) : Visits setting name arguments (.Enter id, []) m₄

section Visits

variable {setting : Setting} {name : String} {arguments : List Term} {m : Machine}
  {stand : Control × List Frame}

/-- The entry is there before it is forced. -/
theorem entry_turns : Turns Machine.new
    (do applyEntry setting (← reference setting name) arguments)
    fun id m' => m'.Occupied (.Thunk id) :=
  .bind (reference_safe new_sane).turns fun _ _ hm₁ _ hentry => (applyEntry_safe hm₁ hentry).turns

/-- **Wherever an evaluation comes to, all that the machine holds is there.** -/
theorem Visits.sane (h : Visits setting name arguments stand m) : m.Sane ∧ Stands stand m := by
  induction h with
  | entry hentry htick =>
    obtain ⟨⟨hm, -⟩, hid⟩ := entry_turns.result hentry
    obtain ⟨⟨hm', -⟩, hid'⟩ := (tick_occupied hm hid).result htick
    exact ⟨hm', hid', carries_nil⟩
  | advance _ hstep ih => exact hstep.sane ih.1 ih.2
  | @field _ _ _ _ before after id _ _ _ _ m₁ m₂ _ _ _ hturn hvalue hbefore htick ih =>
    obtain ⟨⟨hm₁, -⟩, hdone⟩ := (turn_turns ih.1 ih.2).result hturn
    obtain ⟨⟨hm₂, -⟩, hfields⟩ := (constructorValue_safe hm₁ hdone).result hvalue
    -- The fields are roots of the caller while those before this one are read off.
    have hcallers : ∀ x ∈ (before ++ id :: after).reverse ++ m₂.callerRoots,
        m₂.Occupied (.Thunk x) := List.forall_mem_append.2
      ⟨fun x hx => holds_thunks.1 hfields x (List.mem_reverse.1 hx), hm₂.callers⟩
    have hrooted : ({ m₂ with
        callerRoots := (before ++ id :: after).reverse ++ m₂.callerRoots } : Machine).Sane :=
      ⟨hm₂.edges, hm₂.root, hm₂.globals, hcallers, hm₂.hosts, hm₂.freeThunks,
        hm₂.freeEnvironments⟩
    have hroots : ∀ x ∈ before ++ id :: after,
        x ∈ (before ++ id :: after).reverse ++ m₂.callerRoots := fun x hx =>
      List.mem_append_left _ (List.mem_reverse.2 hx)
    obtain ⟨⟨hm₃, hkept⟩, -⟩ := (materializeAll_turns
      (fun _ _ _ hm hid => materialize_turns hm hid) hrooted fun x hx =>
        hroots x (List.mem_append_left _ hx)).result hbefore
    have hid₃ := hm₃.callers id
      (hkept ▸ hroots id (List.mem_append_right _ List.mem_cons_self))
    obtain ⟨⟨hm₄, -⟩, hid₄⟩ := (tick_occupied hm₃ hid₃).result htick
    exact ⟨hm₄, hid₄, carries_nil⟩

end Visits

/-- **An evaluation follows no broken reference**, whatever the program and however often the
machine collects: all that the machine holds is there wherever the evaluation comes to, and at its
end, with no root of a caller left behind. -/
theorem evaluate_proper (name : String) (arguments : List Term) :
    Finishes (evaluate setting name arguments) Machine.new
      (fun _ m' => m'.Sane ∧ m'.callerRoots = []) (fun err _ => Proper err) ∧
    ∀ control frames m, Visits setting name arguments (control, frames) m →
      (m.Sane ∧ Stands (control, frames) m) ∧
        Finishes (turn setting control frames) m (fun _ _ => True) (fun err _ => Proper err) := by
  have hrun : Turns Machine.new (evaluate setting name arguments) fun _ _ => True := by
    refine .bind (reference_safe new_sane).turns fun entry m₁ hm₁ _ hentry => ?_
    refine .bind (applyEntry_safe hm₁ hentry).turns fun entry m₂ hm₂ _ hentry => ?_
    exact .bind (materialize_turns hm₂ hentry) fun _ _ hm₃ _ _ => (Safe.pure hm₃ trivial).turns
  refine ⟨Finishes.imp hrun fun _ _ h => h.1, fun control frames m h => ⟨h.sane, ?_⟩⟩
  exact (turn_turns h.sane.1 h.sane.2).imp fun _ _ _ => trivial

/-- A program whose entry is a constructor. -/
def unitSetting : Setting where
  program :=
    { definitions := [("main", ⟨"main", [], none, .Qnt, some (.Ctr "Unit" []), false, false⟩)]
      datatypes := []
      foreign := []
      numeric := []
      optimizations := []
      natOptimizations := []
      packed := false
      strict := false }
  limits := .runtime
  floats := ⟨fun _ _ => 0, fun _ => "", fun _ => none⟩
  compressing := false

/-- The entry is evaluated, and a collection in front of it leaves what it needs. -/
theorem evaluate_proper_unit :
    (∃ value m', evaluate unitSetting "main" [] Machine.new = .ok value m' ∧ m'.Sane) ∧
      ∃ id m m', Visits unitSetting "main" [] (.Enter id, []) m ∧ collect id [] m = .ok () m' ∧
        m'.Sane ∧ m'.Occupied (.Thunk id) := by
  have hend (setting : Setting) {value : Term} {m' : Machine}
      (h : evaluate setting "main" [] Machine.new = .ok value m') : m'.Sane :=
    ((evaluate_proper setting "main" []).1.result h).1
  constructor
  · obtain ⟨m', hrun⟩ : ∃ m', (do
        let _ ← evaluate unitSetting "main" []
        return ()) Machine.new = .ok () m' := exists_of_yields (by decide +kernel)
    obtain ⟨value, m₁, hvalue, -⟩ := Finishes.parts hrun
    exact ⟨value, m₁, hvalue, hend unitSetting hvalue⟩
  · obtain ⟨m', hrun⟩ : ∃ m', (do
        let id ← (do applyEntry unitSetting (← reference unitSetting "main") [])
        tick
        collect id []) Machine.new = .ok () m' :=
      exists_of_yields (by decide +kernel)
    obtain ⟨id, m₁, hentry, hrest⟩ := Finishes.parts hrun
    obtain ⟨_, m, htick, hcollect⟩ := Finishes.parts hrest
    have hvisits : Visits unitSetting "main" [] (.Enter id, []) m := .entry hentry htick
    obtain ⟨⟨hm', hid, -⟩, -⟩ := (evaluate_proper unitSetting "main" []).2 _ _ _
      (hvisits.advance (.collect hcollect))
    exact ⟨id, m, m', hvisits, hcollect, hm', hid⟩

end TeamyBend.Runtime.Evaluator
