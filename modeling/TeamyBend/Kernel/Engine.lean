/-
# The state of the kernel

The part of `check.rs` under every rule: the engine with its declarations, aliases and budgets,
and the charges every recursive call pays.

A computation is a function of the engine that fails or gives a result, and in both cases leaves
an engine.  Two fields stand for what terms as values do not have: `pointers` says which of two
equal terms the source holds by one pointer, and `display` prints a term into a message.  Source
locations and diagnostic reports are left out.

Every recursive function of the kernel takes a number that bounds the recursion and fails as an
exhausted budget does when it reaches zero.  Each call charges a step, so a bound above the fuel
is never reached; the results hold for every bound.
-/
import TeamyBend.Kernel.Term

namespace TeamyBend.Kernel

/-! ## 1. The engine -/

/-- Which equal terms are one allocation (`Rc::ptr_eq`), and whether a term is the allocation that
an entry of the head memo is kept for.  Every question is asked at a fuel of its own, so the answer
may depend on it. -/
structure Pointers where
  same : Nat → Term → Term → Bool
  sound : ∀ n a b, same n a b = true → a = b
  entry : Nat → Nat → Term → Term → Bool := fun _ _ _ _ => false
  entrySound : ∀ n i a b, entry n i a b = true → a = b := by simp

/-- No two terms share an allocation. -/
def Pointers.distinct : Pointers := { same := fun _ _ _ => false, sound := by simp }

/-- `struct Engine`.  A datatype is declared under its own name. -/
structure Engine where
  defs : String → Option DefDecl
  adts : String → Option AdtDecl
  named : ∀ name adt, adts name = some adt → adt.name = name
  aliases : Nat → Option Term
  foreignContracts : String → Bool
  numericContracts : String → Bool
  opaqueContracts : String → Bool
  freshId : Nat
  fuel : Nat
  depth : Nat
  pointers : Pointers
  display : Term → String
  normalizationMemo : Option (List (Term × Term)) := none

/-- `usize::MAX`. -/
def usizeMax : Nat := 18446744073709551615

/-- A computation of the kernel. -/
abbrev M (α : Type) := EStateM KernelError Engine α

/-- A failing computation. -/
def fail {α : Type} (message : String) : M α := throw (.new message)

/-- The failure of an exhausted budget. -/
def exhausted {α : Type} : M α := fail "kernel evaluation budget exhausted; proof not accepted"

/-- `Engine::step`. -/
def step : M Unit := do
  let e ← get
  if e.fuel = 0 then exhausted else set { e with fuel := e.fuel - 1 }

/-- `Engine::enter`. -/
def enter : M Unit := do
  let e ← get
  if 128 ≤ e.depth then fail "kernel nesting limit exhausted; proof not accepted"
  else set { e with depth := e.depth + 1 }

/-- `self.depth -= 1`. -/
def leave : M Unit := modify fun e => { e with depth := e.depth - 1 }

/-- `m` and then a change of the engine, which a failure of `m` does not skip. -/
def ensuring {α : Type} (m : M α) (change : Engine → Engine) : M α :=
  fun e => match m e with
    | .ok a e₁ => .ok a (change e₁)
    | .error err e₁ => .error err (change e₁)

/-- A rule that pays a step and runs one level deeper. -/
def charged {α : Type} (rule : M α) : M α := do
  step
  enter
  ensuring rule fun e => { e with depth := e.depth - 1 }

/-- The number `Engine::fresh` gives to its variable. -/
def freshId : M Nat := do
  let e ← get
  if e.freshId = usizeMax then fail "binder identifier space exhausted"
  else
    set { e with freshId := e.freshId + 1 }
    return e.freshId

/-- `Rc::ptr_eq`. -/
def ptrEq (a b : Term) : M Bool := do
  let e ← get
  return e.pointers.same e.fuel a b

/-! ## 2. Runs that succeed -/

/-- `m` succeeds on `e` with result `a` and engine `e'`. -/
def Returns {α : Type} (m : M α) (e : Engine) (a : α) (e' : Engine) : Prop := m e = .ok a e'

section Returns

variable {α β : Type} {e e' : Engine}

/-- A run has one result. -/
theorem Returns.unique {m : M α} {a b : α} {e₁ e₂ : Engine} (h : Returns m e a e₁)
    (h' : Returns m e b e₂) : a = b ∧ e₁ = e₂ := by
  rw [Returns] at h h'
  simpa using h.symm.trans h'

@[simp] theorem returns_pure {a b : α} : Returns (pure a) e b e' ↔ a = b ∧ e = e' := by
  have hrun : (pure a : M α) e = .ok a e := rfl
  simp [Returns, hrun]

@[simp] theorem returns_bind {m : M α} {f : α → M β} {b : β} :
    Returns (m >>= f) e b e' ↔ ∃ a e₁, Returns m e a e₁ ∧ Returns (f a) e₁ b e' := by
  have hrun : (m >>= f) e = EStateM.bind m f e := rfl
  simp only [Returns, hrun, EStateM.bind]
  cases m e with
  | error err e₁ =>
    constructor
    · intro h
      cases h
    · rintro ⟨a, e₁, h, -⟩
      cases h
  | ok a e₁ =>
    constructor
    · exact fun h => ⟨a, e₁, rfl, h⟩
    · rintro ⟨a, e₁, h, hf⟩
      cases h
      exact hf

@[simp] theorem returns_get {e₁ : Engine} : Returns get e e₁ e' ↔ e = e₁ ∧ e = e' := by
  have hrun : (get : M Engine) e = .ok e e := rfl
  simp [Returns, hrun]

@[simp] theorem returns_set {e₁ : Engine} {u : PUnit} : Returns (set e₁) e u e' ↔ e₁ = e' := by
  have hrun : (set e₁ : M PUnit) e = .ok u e₁ := rfl
  simp [Returns, hrun]

@[simp] theorem returns_modify {f : Engine → Engine} {u : PUnit} :
    Returns (modify f) e u e' ↔ f e = e' := by
  have hrun : (modify f : M PUnit) e = .ok u (f e) := rfl
  simp [Returns, hrun]

@[simp] theorem returns_ensuring {m : M α} {change : Engine → Engine} {a : α} :
    Returns (ensuring m change) e a e' ↔ ∃ e₁, Returns m e a e₁ ∧ change e₁ = e' := by
  simp only [Returns, ensuring]
  cases m e with
  | error err e₁ => simp
  | ok b e₁ => simp [and_assoc]

@[simp] theorem returns_fail {message : String} {a : α} : ¬Returns (fail message) e a e' := by
  have hrun : (fail message : M α) e = .error (.new message) e := rfl
  simp [Returns, hrun]

@[simp] theorem returns_exhausted {a : α} : ¬Returns exhausted e a e' := returns_fail

@[simp] theorem returns_ite {c : Prop} [Decidable c] {m n : M α} {a : α} :
    Returns (if c then m else n) e a e' ↔ if c then Returns m e a e' else Returns n e a e' := by
  split <;> rfl

@[simp] theorem returns_step {u : Unit} :
    Returns step e u e' ↔ e.fuel ≠ 0 ∧ { e with fuel := e.fuel - 1 } = e' := by
  simp [step]

@[simp] theorem returns_enter {u : Unit} :
    Returns enter e u e' ↔ e.depth < 128 ∧ { e with depth := e.depth + 1 } = e' := by
  simp [enter]

@[simp] theorem returns_leave {u : Unit} :
    Returns leave e u e' ↔ { e with depth := e.depth - 1 } = e' := by
  have hrun : leave e = .ok () { e with depth := e.depth - 1 } := rfl
  simp [Returns, hrun]

/-- A charged rule is the rule on an engine with one step less and one level more. -/
@[simp] theorem returns_charged {m : M α} {a : α} :
    Returns (charged m) e a e' ↔ e.fuel ≠ 0 ∧ e.depth < 128 ∧
      ∃ e₁, Returns m { e with fuel := e.fuel - 1, depth := e.depth + 1 } a e₁ ∧
        { e₁ with depth := e₁.depth - 1 } = e' := by
  simp only [charged, returns_bind, returns_step, returns_enter, returns_ensuring]
  constructor
  · rintro ⟨-, _, ⟨hfuel, rfl⟩, -, _, ⟨hdepth, rfl⟩, e₁, hm, rfl⟩
    exact ⟨hfuel, hdepth, e₁, hm, rfl⟩
  · rintro ⟨hfuel, hdepth, e₁, hm, rfl⟩
    exact ⟨(), _, ⟨hfuel, rfl⟩, (), _, ⟨hdepth, rfl⟩, e₁, hm, rfl⟩

@[simp] theorem returns_freshId {n : Nat} :
    Returns freshId e n e' ↔
      e.freshId ≠ usizeMax ∧ n = e.freshId ∧ { e with freshId := e.freshId + 1 } = e' := by
  simp only [freshId, returns_bind, returns_get, returns_ite, returns_fail, returns_set,
    returns_pure]
  constructor
  · rintro ⟨_, _, ⟨rfl, rfl⟩, h⟩
    split at h
    · exact h.elim
    · obtain ⟨-, _, rfl, rfl, rfl⟩ := h
      exact ⟨‹_›, rfl, rfl⟩
  · rintro ⟨hmax, rfl, rfl⟩
    exact ⟨e, e, ⟨rfl, rfl⟩, by rw [if_neg hmax]; exact ⟨(), _, rfl, rfl, rfl⟩⟩

@[simp] theorem returns_ptrEq {a b : Term} {r : Bool} :
    Returns (ptrEq a b) e r e' ↔ e.pointers.same e.fuel a b = r ∧ e = e' := by
  simp only [ptrEq, returns_bind, returns_get, returns_pure]
  constructor
  · rintro ⟨_, _, ⟨rfl, rfl⟩, rfl, rfl⟩
    exact ⟨rfl, rfl⟩
  · rintro ⟨rfl, rfl⟩
    exact ⟨e, e, ⟨rfl, rfl⟩, rfl, rfl⟩

/-- What a run ends with, where a failure ends everything. -/
def outcome (m : M α) (e : Engine) : Except KernelError (α × Engine) :=
  match m e with
  | .ok a e' => .ok (a, e')
  | .error err _ => .error err

theorem outcome_eq_ok {m : M α} {r : α × Engine} :
    outcome m e = .ok r ↔ Returns m e r.1 r.2 := by
  rw [outcome, Returns]
  split
  · rename_i a e' hr
    rw [hr]
    constructor
    · intro h
      cases h
      rfl
    · intro h
      cases h
      rfl
  · rename_i hr
    simp [hr]

/-- The result of a run, for runs on given inputs. -/
def result (m : M α) (e : Engine) : Option α :=
  match m e with
  | .ok a _ => some a
  | .error _ _ => none

theorem returns_of_result {m : M α} {f : α → β} {b : β} (h : (result m e).map f = some b) :
    ∃ a e', Returns m e a e' ∧ f a = b := by
  rw [result] at h
  split at h
  · rename_i a e' hr
    exact ⟨a, e', hr, by simpa using h⟩
  · simp at h

end Returns

end TeamyBend.Kernel
