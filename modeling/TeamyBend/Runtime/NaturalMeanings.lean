/-
# What compact naturals denote

A thunk denotes a lazy natural.  What it denotes is determined by the arena as far as the arena
goes: `Reads` lists what an assignment of meanings has to respect at literals, prefixes,
constructors, aliases, operations and their applications, and leaves every other thunk open.  The
theorems hold for all such assignments, so for what an unevaluated thunk turns out to be.

Every step keeps the thunks that are there, so it demands none of them.  `Ends` charges one unit of
the budget for each tick and each allocation.
-/
import TeamyBend.Library.Outcomes
import TeamyBend.Base.Numerals
import TeamyBend.Runtime.Force

namespace TeamyBend.Runtime.Evaluator

open Library (LazyNat Budget Ends)
open Kernel (Term DefDecl)
open Base (natAdd natDouble)

variable {setting : Setting} {m m' m₁ m₂ : Machine}

/-! ## 1. Budgets and machines -/

/-- The errors of a used-up budget. -/
def Exhausted (err : KernelError) : Prop :=
  err = .new "data runtime step budget exhausted" ∨
    err = .new "data runtime thunk budget exhausted" ∨
    err = .new "data runtime continuation depth exhausted"

/-- The thunks that can still be allocated. -/
def Machine.room (setting : Setting) (m : Machine) : Nat :=
  setting.limits.arena - m.arena.length + m.freeThunks.length

/-- The steps and the thunks of a machine as one budget. -/
def budget (setting : Setting) : Budget KernelError Machine where
  exhausted := Exhausted
  affords m k := k ≤ m.remaining ∧ k ≤ m.room setting
  less m k j h := ⟨by omega, by omega⟩

/-- A compact natural within its bounds. -/
def Value.Counted : Value → Prop
  | .PackedNat value => value ≤ natMax
  | .NatPrefix count _ => 0 < count ∧ count ≤ natMax
  | _ => True

/-- The free slots are vacant, and the compact naturals are within their bounds. -/
structure Machine.Sound (m : Machine) : Prop where
  nodup : m.freeThunks.Nodup
  vacant : ∀ id ∈ m.freeThunks, m.arena[id]? = some none
  counted : ∀ id value, m.thunkAt id = some (.Ready value) → value.Counted

/-- What `m` holds, `m'` holds at the same place. -/
structure Machine.Extends (m m' : Machine) : Prop where
  thunks : ∀ id thunk, m.thunkAt id = some thunk → m'.thunkAt id = some thunk
  globals : ∀ name id, m.global name = some id → m'.global name = some id
  sound : m'.Sound

theorem Machine.Extends.refl (hsound : m.Sound) : m.Extends m :=
  ⟨fun _ _ h => h, fun _ _ h => h, hsound⟩

theorem Machine.Extends.trans (h : m.Extends m₁) (h' : m₁.Extends m₂) : m.Extends m₂ :=
  ⟨fun id thunk hid => h'.thunks id thunk (h.thunks id thunk hid),
    fun name id hid => h'.globals name id (h.globals name id hid), h'.sound⟩

/-- A thunk that a new slot may hold. -/
def Thunk.Counted : Thunk → Prop
  | .Ready value => value.Counted
  | _ => True

theorem thunkAt_set {id j : Nat} {thunk : Thunk} {slots : List (Option Thunk)}
    (hid : id < slots.length) :
    ((slots.set id (some thunk))[j]?).join = if j = id then some thunk else (slots[j]?).join := by
  rw [List.getElem?_set]
  by_cases hj : j = id
  · rw [if_pos hj.symm, if_pos (hj ▸ hid), if_pos hj]
    rfl
  · rw [if_neg (Ne.symm hj), if_neg hj]

theorem thunkAt_append {j : Nat} {thunk : Thunk} {slots : List (Option Thunk)} :
    ((slots ++ [some thunk])[j]?).join =
      if j = slots.length then some thunk else (slots[j]?).join := by
  rcases Nat.lt_trichotomy j slots.length with hj | hj | hj
  · rw [List.getElem?_append_left hj, if_neg (by omega)]
  · rw [if_pos hj, List.getElem?_append_right (by omega), hj, Nat.sub_self]
    rfl
  · have hlen : (slots ++ [some thunk]).length ≤ j := by
      rw [List.length_append, List.length_singleton]
      omega
    rw [if_neg (by omega), List.getElem?_eq_none hlen, List.getElem?_eq_none (by omega)]

/-- A machine whose only change is a new thunk in a slot that was vacant. -/
theorem Machine.Extends.adds {id : ThunkId} {thunk : Thunk} (hsound : m.Sound)
    (hcounted : thunk.Counted) (hvacant : m.thunkAt id = none)
    (hthunks : ∀ j, m'.thunkAt j = if j = id then some thunk else m.thunkAt j)
    (hglobals : m'.globals = m.globals) (hnodup : m'.freeThunks.Nodup)
    (hfree : ∀ j ∈ m'.freeThunks, m'.arena[j]? = some none) :
    m.Extends m' ∧ m'.thunkAt id = some thunk := by
  refine ⟨⟨fun j held hj => ?_, fun name j hj => ?_, hnodup, hfree, fun j value hj => ?_⟩, ?_⟩
  · rw [hthunks, if_neg, hj]
    rintro rfl
    rw [hvacant] at hj
    cases hj
  · rwa [Machine.global, hglobals]
  · rw [hthunks] at hj
    split at hj
    · cases hj
      exact hcounted
    · exact hsound.counted j value hj
  · rw [hthunks, if_pos rfl]

/-- What an allocation gives: a slot with the thunk, and nothing else changed. -/
def Holds (m : Machine) (thunk : Thunk) (id : ThunkId) (m' : Machine) : Prop :=
  m.Extends m' ∧ m'.thunkAt id = some thunk

variable {P : KernelError → Prop}

theorem ends_tick (hsound : m.Sound) :
    Ends (budget setting) 1 tick m (fun _ m' => m.Extends m') P := by
  cases hremaining : m.remaining with
  | zero =>
    refine Ends.error (tick_exhausted hremaining) (.inr ⟨.inl rfl, fun h => ?_⟩)
    have hsteps : 1 ≤ m.remaining := h.1
    omega
  | succ r =>
    refine Ends.ok (tick_run hremaining) ⟨fun _ _ h => h, fun _ _ h => h, ⟨hsound.nodup,
      hsound.vacant, hsound.counted⟩⟩ fun j hj => ⟨?_, ?_⟩
    · have hsteps : 1 + j ≤ m.remaining := hj.1
      show j ≤ r
      omega
    · have hroom : 1 + j ≤ m.room setting := hj.2
      show j ≤ m.room setting
      omega

theorem ends_allocate {thunk : Thunk} (hsound : m.Sound) (hcounted : thunk.Counted) :
    Ends (budget setting) 1 (allocate setting thunk) m (Holds m thunk) P := by
  cases hfree : m.freeThunks with
  | cons id free =>
    have hnodup := hsound.nodup
    have hvacant := hsound.vacant
    rw [hfree] at hnodup hvacant
    have hid := hvacant id List.mem_cons_self
    have hlt : id < m.arena.length := (List.getElem?_eq_some_iff.1 hid).1
    refine Ends.ok (allocate_free hfree hlt) (Machine.Extends.adds hsound hcounted ?_
      (fun j => thunkAt_set hlt) rfl (List.nodup_cons.1 hnodup).2 fun j hj => ?_)
      fun j hj => ⟨?_, ?_⟩
    · rw [Machine.thunkAt, hid]
      rfl
    · have hne : id ≠ j := fun heq => (List.nodup_cons.1 hnodup).1 (heq ▸ hj)
      exact (List.getElem?_set_ne hne).trans (hvacant j (List.mem_cons_of_mem id hj))
    · have hsteps : 1 + j ≤ m.remaining := hj.1
      show j ≤ m.remaining
      omega
    · have hroom : 1 + j ≤ m.room setting := hj.2
      rw [Machine.room, hfree, List.length_cons] at hroom
      show j ≤ setting.limits.arena - (m.arena.set id (some thunk)).length + free.length
      rw [List.length_set]
      omega
  | nil =>
    have hroom : m.room setting = setting.limits.arena - m.arena.length := by
      rw [Machine.room, hfree, List.length_nil, Nat.add_zero]
    rcases Nat.lt_or_ge m.arena.length setting.limits.arena with hlt | hge
    · refine Ends.ok (allocate_new hfree hlt) (Machine.Extends.adds hsound hcounted ?_
        (fun j => thunkAt_append) rfl hsound.nodup fun j hj => ?_) fun j hj => ⟨?_, ?_⟩
      · rw [Machine.thunkAt, List.getElem?_eq_none (Nat.le_refl _)]
        rfl
      · have hmem : j ∈ m.freeThunks := hj
        rw [hfree] at hmem
        cases hmem
      · have hsteps : 1 + j ≤ m.remaining := hj.1
        show j ≤ m.remaining
        omega
      · have hroom' : 1 + j ≤ m.room setting := hj.2
        show j ≤ setting.limits.arena - (m.arena ++ [some thunk]).length + m.freeThunks.length
        rw [List.length_append, List.length_singleton]
        omega
    · refine Ends.error (allocate_full hfree hge) (.inr ⟨.inr (.inl rfl), fun h => ?_⟩)
      have hroom' : 1 ≤ m.room setting := h.2
      omega

/-! ## 2. What thunks denote -/

/-- What the thunks of a machine denote: lazy naturals, and calls of the operations on naturals. -/
structure Meaning where
  natural : ThunkId → LazyNat
  calls : ThunkId → NatOperation → List ThunkId → Prop

/-- What a compact natural or a constructor of one denotes. -/
def Meaning.value (ρ : Meaning) : Value → Option LazyNat
  | .PackedNat value => some (.whole value)
  | .NatPrefix count tail => some ((ρ.natural tail).after count)
  | .Constructor name [] => if name = "Zero" then some (.whole 0) else none
  | .Constructor name [pred] => if name = "Succ" then some (ρ.natural pred).succ else none
  | _ => none

/-- The body the program has for an operation. -/
def Program.checkedBody (program : Program) (operation : NatOperation) : Option Term :=
  (program.definitions.lookup operation.name).bind (·.body)

/-- The meanings that agree with what the arena says.  A checked body denotes the operation it
stands for, and a complete call of `Nat.add` or `Nat.double` what the Base computes. -/
structure Reads (setting : Setting) (m : Machine) (ρ : Meaning) : Prop where
  value : ∀ id value u, m.thunkAt id = some (.Ready value) → ρ.value value = some u →
    ρ.natural id = u
  aliased : ∀ id target, m.thunkAt id = some (.Alias target) → ρ.natural id = ρ.natural target
  operation : ∀ id operation arguments,
    m.thunkAt id = some (.Ready (.Natural operation arguments)) → ρ.calls id operation arguments
  body : ∀ id operation body, m.thunkAt id = some (.Expression body 0) →
    setting.program.checkedBody operation = some body → ρ.calls id operation []
  global : ∀ id (operation : NatOperation), m.global operation.name = some id →
    ρ.calls id operation []
  applied : ∀ id function argument operation arguments,
    m.thunkAt id = some (.Application function argument) → ρ.calls function operation arguments →
    ρ.calls id operation (arguments ++ [argument])
  added : ∀ id left right, ρ.calls id .Add [left, right] →
    ρ.natural id = natAdd (ρ.natural left) (ρ.natural right)
  doubled : ∀ id n, ρ.calls id .Double [n] → ρ.natural id = natDouble (ρ.natural n)

/-- A machine that holds the sum of `2` and `3` as two applications of `Nat.add`. -/
def sumMachine : Machine where
  arena := [some (.Ready (.PackedNat 2)), some (.Ready (.PackedNat 3)),
    some (.Ready (.Natural .Add [])), some (.Application 2 0), some (.Application 3 1)]
  environments := [some ⟨none, []⟩]
  freeThunks := []
  freeEnvironments := []
  callerRoots := []
  hostRoots := []
  allocationDebt := 0
  globals := [("Nat.add", 2)]
  remaining := 0

/-- What its thunks denote. -/
def sumMeaning : Meaning where
  natural id := match id with
    | 0 => .whole 2
    | 1 => .whole 3
    | _ => .whole 5
  calls id operation arguments := operation = .Add ∧
    (id = 2 ∧ arguments = [] ∨ id = 3 ∧ arguments = [0] ∨ id = 4 ∧ arguments = [0, 1])

/-- The five thunks of the machine. -/
theorem thunkAt_sumMachine {id : ThunkId} {thunk : Thunk}
    (h : sumMachine.thunkAt id = some thunk) :
    id = 0 ∧ thunk = .Ready (.PackedNat 2) ∨ id = 1 ∧ thunk = .Ready (.PackedNat 3) ∨
      id = 2 ∧ thunk = .Ready (.Natural .Add []) ∨ id = 3 ∧ thunk = .Application 2 0 ∨
      id = 4 ∧ thunk = .Application 3 1 := by
  rcases id with _ | _ | _ | _ | _ | id <;> cases h <;> simp

/-- The meanings are a reading of the machine, and the sum is `5`. -/
theorem reads_sumMachine : Reads setting sumMachine sumMeaning where
  value id value u h hu := by
    rcases thunkAt_sumMachine h with ⟨rfl, h⟩ | ⟨rfl, h⟩ | ⟨rfl, h⟩ | ⟨rfl, h⟩ | ⟨rfl, h⟩ <;>
      cases h <;> cases hu <;> rfl
  aliased id target h := by
    rcases thunkAt_sumMachine h with ⟨_, h⟩ | ⟨_, h⟩ | ⟨_, h⟩ | ⟨_, h⟩ | ⟨_, h⟩ <;> cases h
  operation id operation arguments h := by
    rcases thunkAt_sumMachine h with ⟨_, h⟩ | ⟨_, h⟩ | ⟨hid, h⟩ | ⟨_, h⟩ | ⟨_, h⟩ <;> cases h
    exact ⟨rfl, .inl ⟨hid, rfl⟩⟩
  body id operation body h := by
    rcases thunkAt_sumMachine h with ⟨_, h⟩ | ⟨_, h⟩ | ⟨_, h⟩ | ⟨_, h⟩ | ⟨_, h⟩ <;> cases h
  global id operation h := by
    cases operation <;> cases h
    exact ⟨rfl, .inl ⟨rfl, rfl⟩⟩
  applied id function argument operation arguments h hcalls := by
    obtain ⟨rfl, hcalls⟩ := hcalls
    rcases thunkAt_sumMachine h with ⟨_, h⟩ | ⟨_, h⟩ | ⟨_, h⟩ | ⟨hid, h⟩ | ⟨hid, h⟩ <;> cases h
    · rcases hcalls with ⟨_, rfl⟩ | ⟨h, _⟩ | ⟨h, _⟩
      · exact ⟨rfl, .inr (.inl ⟨hid, rfl⟩)⟩
      · cases h
      · cases h
    · rcases hcalls with ⟨h, _⟩ | ⟨_, rfl⟩ | ⟨h, _⟩
      · cases h
      · exact ⟨rfl, .inr (.inr ⟨hid, rfl⟩)⟩
      · cases h
  added id left right hcalls := by
    rcases hcalls.2 with ⟨_, h⟩ | ⟨_, h⟩ | ⟨rfl, h⟩ <;> cases h
    rfl
  doubled id n hcalls := by
    cases hcalls.1

/-- A body that is a function. -/
def IsFunction : Term → Prop
  | .Lam _ _ _ | .Mat _ _ _ => True
  | _ => False

/-- A program whose fast paths were sealed (`checked_optimizations`): each operation has a checked
body, a function, and no intrinsic has its name. -/
structure Program.Sealed (program : Program) : Prop where
  packed : program.packed = true
  body : ∀ operation ∈ program.natOptimizations,
    ∃ body, program.checkedBody operation = some body ∧ IsFunction body
  apart : ∀ operation : NatOperation, program.numeric.lookup operation.name = none

/-- The thunk is the application of a function to these arguments, one after the other. -/
inductive Applies (m : Machine) : ThunkId → List ThunkId → ThunkId → Prop where
  | nil (function : ThunkId) : Applies m function [] function
  | cons {function argument next id : ThunkId} {arguments : List ThunkId}
      (hnext : m.thunkAt next = some (.Application function argument))
      (hid : Applies m next arguments id) : Applies m function (argument :: arguments) id

/-- The thunk is the checked body of an operation, applied to these arguments. -/
def EntersBody (setting : Setting) (m : Machine) (operation : NatOperation)
    (arguments : List ThunkId) (id : ThunkId) : Prop :=
  ∃ function body, setting.program.checkedBody operation = some body ∧
    m.thunkAt function = some (.Expression body 0) ∧ Applies m function arguments id

theorem Applies.extends {function id : ThunkId} {arguments : List ThunkId}
    (h : Applies m function arguments id) (hext : m.Extends m') :
    Applies m' function arguments id := by
  induction h with
  | nil function => exact .nil function
  | cons hnext _ ih => exact .cons (hext.thunks _ _ hnext) ih

theorem Reads.applies {ρ : Meaning} (hρ : Reads setting m ρ) {function id : ThunkId}
    {arguments : List ThunkId} (h : Applies m function arguments id) {operation : NatOperation}
    {before : List ThunkId} (hcalls : ρ.calls function operation before) :
    ρ.calls id operation (before ++ arguments) := by
  induction h generalizing before with
  | nil function => rwa [List.append_nil]
  | cons hnext _ ih =>
    have hstep := ih (hρ.applied _ _ _ _ _ hnext hcalls)
    rwa [List.append_assoc, List.singleton_append] at hstep

theorem Reads.entersBody {ρ : Meaning} (hρ : Reads setting m ρ) {operation : NatOperation}
    {arguments : List ThunkId} {id : ThunkId} (h : EntersBody setting m operation arguments id) :
    ρ.calls id operation arguments := by
  obtain ⟨function, body, hbody, hfunction, happlies⟩ := h
  exact hρ.applies happlies (hρ.body _ _ _ hfunction hbody)

/-- A thunk that is evaluated to this value, possibly through aliases. -/
inductive Evaluated (m : Machine) : ThunkId → Value → Prop where
  | ready {id : ThunkId} {value : Value} (h : m.thunkAt id = some (.Ready value)) :
      Evaluated m id value
  | through {id target : ThunkId} {value : Value} (h : m.thunkAt id = some (.Alias target))
      (htarget : Evaluated m target value) : Evaluated m id value

theorem Evaluated.extends {id : ThunkId} {value : Value} (h : Evaluated m id value)
    (hext : m.Extends m') : Evaluated m' id value := by
  induction h with
  | ready h => exact .ready (hext.thunks _ _ h)
  | through h _ ih => exact .through (hext.thunks _ _ h) ih

theorem Evaluated.counted {id : ThunkId} {value : Value} (h : Evaluated m id value)
    (hsound : m.Sound) : value.Counted := by
  induction h with
  | ready h => exact hsound.counted _ _ h
  | through _ _ ih => exact ih

theorem Reads.evaluated {ρ : Meaning} (hρ : Reads setting m ρ) {id : ThunkId} {value : Value}
    (h : Evaluated m id value) {u : LazyNat} (hu : ρ.value value = some u) : ρ.natural id = u := by
  induction h with
  | ready h => exact hρ.value _ _ _ h hu
  | through h _ ih => exact (hρ.aliased _ _ h).trans (ih hu)

/-! ## 3. Building naturals -/

theorem ends_applications (hsound : m.Sound) (function : ThunkId) (arguments : List ThunkId) :
    Ends (budget setting) arguments.length (applications setting function arguments) m
      (fun id m' => m.Extends m' ∧ Applies m' function arguments id) P := by
  induction arguments generalizing m function with
  | nil => exact Ends.pure ⟨.refl hsound, .nil function⟩
  | cons argument arguments ih =>
    have hfirst : Ends (budget setting) 1
        (allocate setting (.Application function argument)) m
        (Holds m (.Application function argument)) P := ends_allocate hsound trivial
    refine (hfirst.bind fun next m₁ h₁ => (ih h₁.1.sound next).imp fun id m₂ h₂ => ?_).more
      (by rw [List.length_cons]; omega)
    exact ⟨h₁.1.trans h₂.1, .cons (h₂.1.thunks _ _ h₁.2) h₂.2⟩

theorem ends_natPrefix (hsound : m.Sound) (hpacked : setting.program.packed = true) {count : Nat}
    (hcount : count ≤ 2 * natMax) (tail : ThunkId) :
    Ends (budget setting) 2 (natPrefix setting count tail) m (fun id m' => m.Extends m' ∧
      ∀ ρ, Reads setting m' ρ → ρ.natural id = (ρ.natural tail).after count) P := by
  unfold natPrefix
  rw [if_neg (by rw [hpacked]; simp; omega)]
  refine Ends.ite (fun hzero => ?_) fun hzero => Ends.ite (fun hlarge => ?_) fun hsmall => ?_
  · subst hzero
    exact (Ends.pure ⟨.refl hsound, fun ρ _ => rfl⟩).more (Nat.zero_le _)
  · -- two chunks: the rest of the count in front of the tail, and a full chunk in front of that
    have hrest : Ends (budget setting) 1
        (allocate setting (.Ready (.NatPrefix (count - natMax) tail))) m
        (Holds m (.Ready (.NatPrefix (count - natMax) tail))) P :=
      ends_allocate hsound ⟨by omega, by omega⟩
    refine Ends.bind (j := 1) hrest fun inner m₁ h₁ => ?_
    refine (ends_allocate h₁.1.sound (by exact ⟨by decide, Nat.le_refl _⟩)).imp fun id m₂ h₂ => ?_
    refine ⟨h₁.1.trans h₂.1, fun ρ hρ => ?_⟩
    have houter := hρ.value _ _ _ h₂.2 rfl
    have hinner := hρ.value _ _ _ (h₂.1.thunks _ _ h₁.2) rfl
    rw [houter, hinner, ← LazyNat.after_add, Nat.add_sub_of_le (Nat.le_of_lt hlarge)]
  · refine ((ends_allocate hsound (by exact ⟨by omega, by omega⟩)).imp fun id m₁ h₁ => ?_).more
      (by omega)
    exact ⟨h₁.1, fun ρ hρ => hρ.value _ _ _ h₁.2 rfl⟩

theorem ends_nat (hsound : m.Sound) (hpacked : setting.program.packed = true) {value : Nat}
    (hvalue : value ≤ natMax) :
    Ends (budget setting) 1 (nat setting value) m (Holds m (.Ready (.PackedNat value))) P := by
  unfold nat
  rw [if_neg (by rw [hpacked]; simp), if_neg (by omega)]
  exact ends_allocate hsound hvalue

theorem ends_prefixCount {count : Nat} (hcount : 0 < count ∧ count ≤ natMax)
    {Q : Nat → Machine → Prop} (hQ : Q count m) :
    Ends (budget setting) 0 (prefixCount count) m Q P := by
  unfold prefixCount
  rw [if_neg (by omega)]
  exact Ends.pure hQ

/-- A natural seen as data: a zero, or a successor of a thunk. -/
def Value.IsNatural : Value → Prop
  | .PackedNat _ | .NatPrefix _ _ => True
  | .Constructor name fields => name = "Zero" ∧ fields = [] ∨ name = "Succ" ∧ fields.length = 1
  | _ => False

/-- The constructor and the fields that stand for a lazy natural. -/
inductive Reveals (ρ : Meaning) : String × List ThunkId → LazyNat → Prop where
  | zero : Reveals ρ ("Zero", []) (.whole 0)
  | succ (pred : ThunkId) : Reveals ρ ("Succ", [pred]) (ρ.natural pred).succ

/-- **`constructor_value` reveals the head.**  On a compact natural and on a constructor it gives
the constructor of the natural and, below a successor, a thunk that denotes the predecessor. -/
theorem ends_constructorValue (hsound : m.Sound) (hpacked : setting.program.packed = true)
    {value : Value} (hvalue : value.IsNatural) (hcounted : value.Counted) :
    Ends (budget setting) 3 (constructorValue setting value) m (fun r m' => m.Extends m' ∧
      ∀ ρ, Reads setting m' ρ → ∃ u, ρ.value value = some u ∧ Reveals ρ r u) P := by
  cases value with
  | PackedNat value =>
    refine Ends.bind (k := 1) (j := 2) (ends_tick hsound) fun _ m₁ h₁ => ?_
    refine Ends.ite (fun hzero => ?_) fun hzero => ?_
    · subst hzero
      exact (Ends.pure ⟨h₁, fun ρ _ => ⟨_, rfl, .zero⟩⟩).more (Nat.zero_le _)
    · have hpred : value - 1 ≤ natMax := Nat.le_trans (Nat.sub_le _ _) hcounted
      refine (Ends.map ((ends_nat h₁.sound hpacked hpred).imp fun tail m₂ h₂ => ?_)).more
        (Nat.le_succ 1)
      refine ⟨h₁.trans h₂.1, fun ρ hρ => ⟨_, rfl, ?_⟩⟩
      have htail := hρ.value _ _ _ h₂.2 rfl
      have hreveals := Reveals.succ (ρ := ρ) tail
      rw [htail, LazyNat.succ, Nat.sub_add_cancel (Nat.pos_of_ne_zero hzero)] at hreveals
      exact hreveals
  | NatPrefix count tail =>
    refine Ends.bind (k := 1) (j := 2) (ends_tick hsound) fun _ m₁ h₁ => ?_
    refine Ends.bind (k := 0) (j := 2) (ends_prefixCount hcounted (Q := fun c m₂ =>
      c = count ∧ m.Extends m₂) ⟨rfl, h₁⟩) fun c m₂ h₂ => ?_
    obtain ⟨rfl, h₂⟩ := h₂
    have hcount : c - 1 ≤ 2 * natMax := by have := hcounted.2; omega
    refine Ends.map ((ends_natPrefix h₂.sound hpacked hcount tail).imp fun pred m₃ h₃ => ?_)
    refine ⟨h₂.trans h₃.1, fun ρ hρ => ⟨_, rfl, ?_⟩⟩
    have hreveals := Reveals.succ (ρ := ρ) pred
    rw [h₃.2 ρ hρ, ← LazyNat.after_succ, Nat.sub_add_cancel hcounted.1] at hreveals
    exact hreveals
  | Constructor name fields =>
    refine (Ends.pure ⟨.refl hsound, fun ρ _ => ?_⟩).more (Nat.zero_le _)
    rcases hvalue with ⟨rfl, rfl⟩ | ⟨rfl, hlength⟩
    · exact ⟨_, rfl, .zero⟩
    · obtain ⟨pred, rfl⟩ := List.length_eq_one_iff.1 hlength
      exact ⟨_, rfl, .succ pred⟩
  | Handle | PackedWord | PackedBits | Closure | Match | Foreign | Numeric | Natural | Request
    | EmitContinuation | Impossible | Erased => exact hvalue.elim

end TeamyBend.Runtime.Evaluator
