/-
# Thunks, environments and continuation frames

The state of the data runtime (`runtime/mod.rs`): an arena of thunks, an arena of environments, the
global definitions that have a thunk, the two free lists of the collector and the step budget.
Evaluation keeps its continuation in a list of frames, the innermost first.

A `BTreeMap` is an association list and a `Vec` used as a stack is a list with its top first.  The
cancellation callback of the host is left out, and so are the queues of the scheduler, the
channels, the host jobs and the network, of which only the thunks they hold matter here.
Arithmetic on binary32 numbers belongs to the machine the program runs on: it is a parameter.
-/
import TeamyBend.Kernel.Term
import TeamyBend.Runtime.Numeric

namespace TeamyBend.Runtime.Evaluator

open Kernel (Term DefDecl AdtDecl)

abbrev ThunkId := Nat
abbrev EnvId := Nat

/-! ## 1. Operations -/

/-- `nat::Operation`. -/
inductive NatOperation where
  | ArrayNew
  | Add
  | Double
  | Mul
  | Sub
  | Cmp
  | Show
  | FromU32
  | ToU32
  deriving Repr, DecidableEq

/-- `Operation::name`. -/
def NatOperation.name : NatOperation → String
  | ArrayNew => "Array.new"
  | Add => "Nat.add"
  | Double => "Nat.double"
  | Mul => "Nat.mul"
  | Sub => "Nat.sub"
  | Cmp => "Nat.cmp"
  | Show => "Nat.show"
  | FromU32 => "U32.to_nat"
  | ToU32 => "U32.from_nat"

/-- `Operation::arity`. -/
def NatOperation.arity : NatOperation → Nat
  | ArrayNew => 3
  | Add | Mul | Sub | Cmp => 2
  | Double | Show | FromU32 | ToU32 => 1

/-- `NumericIntrinsic`. -/
inductive NumericIntrinsic where
  | U32ToF32 | F32ToU32 | Add | Sub | Mul | Div | Mod | Pow | Atan2 | Neg | Abs | Sqrt | Exp | Log
  | Log2 | Log10 | Sin | Cos | Tan | Asin | Acos | Atan | Sinh | Cosh | Tanh | Floor | Ceil | Trunc
  | Show | Read | Bits | IsEq | IsNe | IsLt | IsLe | IsGt | IsGe
  deriving Repr, DecidableEq

namespace NumericIntrinsic

/-- `NumericIntrinsic::arity`. -/
def arity : NumericIntrinsic → Nat
  | Add | Sub | Mul | Div | Mod | Pow | Atan2 | IsEq | IsNe | IsLt | IsLe | IsGt | IsGe => 2
  | _ => 1

/-- `NumericIntrinsic::input_type`. -/
def inputType : NumericIntrinsic → String
  | U32ToF32 => "U32"
  | Read => "String"
  | _ => "F32"

/-- `NumericIntrinsic::output_type`. -/
def outputType : NumericIntrinsic → String
  | F32ToU32 | Bits => "U32"
  | Show => "String"
  | Read => "Maybe"
  | IsEq | IsNe | IsLt | IsLe | IsGt | IsGe => "Bool"
  | _ => "F32"

end NumericIntrinsic

/-- `NumericOperation`. -/
inductive NumericOperation where
  | Intrinsic (intrinsic : NumericIntrinsic)
  | Optimized (operation : PureOptimization)
  deriving Repr, DecidableEq

namespace NumericOperation

/-- `NumericOperation::arity`. -/
def arity : NumericOperation → Nat
  | Intrinsic intrinsic => intrinsic.arity
  | Optimized operation => operation.arity

/-- `NumericOperation::input_type`. -/
def inputType : NumericOperation → String
  | Intrinsic intrinsic => intrinsic.inputType
  | Optimized _ => "U32"

/-- `NumericOperation::output_type`. -/
def outputType : NumericOperation → String
  | Intrinsic intrinsic => intrinsic.outputType
  | Optimized _ => "U32"

end NumericOperation

/-- `packed::Wrapper`. -/
inductive Wrapper where
  | U32
  | F32
  deriving Repr, DecidableEq

/-- `Wrapper::name`. -/
def Wrapper.name : Wrapper → String
  | U32 => "U32"
  | F32 => "F32"

/-- `Wrapper::from_name`. -/
def Wrapper.fromName (name : String) : Option Wrapper :=
  if name = "U32" then some U32 else if name = "F32" then some F32 else none

/-! ## 2. Values, thunks and frames -/

/-- What an opaque handle stands for. -/
inductive HandleKind where
  | Channel
  | File
  | Socket
  | Listener
  deriving Repr, DecidableEq

/-- `enum Value`.  The four handles are one constructor. -/
inductive Value where
  | Handle (kind : HandleKind) (index generation : Nat)
  | PackedNat (value : Nat)
  | NatPrefix (count : Nat) (tail : ThunkId)
  | PackedWord (wrapper : Wrapper) (bits : UInt32)
  | PackedBits (bits : UInt32) (width : Nat)
  | Constructor (name : String) (fields : List ThunkId)
  | Closure (binder : Nat) (body : Term) (environment : EnvId)
  | Match (constructor : String) (arm fallback : ThunkId)
  | Foreign (name : String) (arguments : List ThunkId)
  | Numeric (operation : NumericOperation) (arguments : List ThunkId)
  | Natural (operation : NatOperation) (arguments : List ThunkId)
  | Request (name : String) (arguments : List ThunkId) (continuation : ThunkId)
  | EmitContinuation
  | Impossible
  | Erased

/-- `enum Thunk`. -/
inductive Thunk where
  | Expression (expression : Term) (environment : EnvId)
  | Application (function argument : ThunkId)
  | Alias (target : ThunkId)
  | Evaluating
  | PendingConstructor (name : String) (fields : List ThunkId) (parent : Option ThunkId)
  | Ready (value : Value)

/-- `struct Environment`. -/
structure Environment where
  parent : Option EnvId
  bindings : List (Nat × ThunkId)

/-- `nat::Evaluation`. -/
structure Evaluation where
  operation : NatOperation
  arguments : List ThunkId
  values : List Nat
  counted : Nat

/-- `NumericArguments`. -/
structure NumericArguments where
  operation : NumericOperation
  arguments : List ThunkId
  words : List UInt32

/-- `OrdinaryArguments`. -/
structure OrdinaryArguments where
  operation : PureOptimization
  arguments : List ThunkId
  words : List UInt32

/-- `WordTarget`. -/
inductive WordTarget where
  | Arguments (state : NumericArguments)
  | Character (text : String) (tail : ThunkId)

/-- `WordTarget::wrapper`. -/
def WordTarget.wrapper : WordTarget → String
  | Arguments state => state.operation.inputType
  | Character _ _ => "U32"

/-- `NumericFrame`. -/
inductive NumericFrame where
  | Ordinary (state : OrdinaryArguments)
  | Unwrap (target : WordTarget)
  | Word (target : WordTarget) (bit : Nat) (word : UInt32)
  | Bit (target : WordTarget) (bit : Nat) (word : UInt32) (tail : ThunkId)
  | Text (text : String)
  | Character (text : String) (tail : ThunkId)

/-- `enum Frame`. -/
inductive Frame where
  | Update (id : ThunkId)
  | Apply (argument : ThunkId)
  | Call (argument : ThunkId)
  | ResumeCall (function : Value) (argument : ThunkId)
  | Constructor (name : String) (fields : List ThunkId) (next : Nat)
  | CompleteConstructorChain (head : ThunkId)
  | Numeric (frame : NumericFrame)
  | Natural (state : Evaluation)
  | Match (constructor : String) (arm fallback argument : ThunkId)

/-! ## 3. The program and the machine -/

/-- `struct Program`.  Of a foreign declaration only the declared arity is read here. -/
structure Program where
  definitions : List (String × DefDecl)
  datatypes : List (String × AdtDecl)
  foreign : List (String × Nat)
  numeric : List (String × NumericIntrinsic)
  optimizations : List PureOptimization
  natOptimizations : List NatOperation
  packed : Bool
  strict : Bool

/-- The bounds on the arenas and on the continuation. -/
structure Limits where
  arena : Nat
  frames : Nat

/-- `ARENA_LIMIT` and `FRAME_LIMIT`. -/
def Limits.runtime : Limits := ⟨131072, 4096⟩

/-- The binary32 operations of the machine the program runs on: `intrinsic_result`, and the texts
of `F32.show` and `F32.read`. -/
structure Floats where
  result : NumericIntrinsic → List UInt32 → UInt32
  shown : UInt32 → String
  read : String → Option UInt32

/-- What a run is about: the program, the bounds, and whether unfinished constructors are kept in
the arena (`compress_constructor_tail`) or on the continuation only. -/
structure Setting where
  program : Program
  limits : Limits
  floats : Floats
  compressing : Bool

/-- `struct Machine`, with the state of the collector.  `hostRoots` are the thunks that the
scheduler, the channels, the host jobs and the network requests hold. -/
structure Machine where
  arena : List (Option Thunk)
  environments : List (Option Environment)
  freeThunks : List ThunkId
  freeEnvironments : List EnvId
  callerRoots : List ThunkId
  hostRoots : List ThunkId
  allocationDebt : Nat
  globals : List (String × ThunkId)
  remaining : Nat

/-- A computation of the machine. -/
abbrev M (α : Type) := EStateM KernelError Machine α

/-- A failing computation. -/
def fail {α : Type} (message : String) : M α := throw (.new message)

/-- `gc::charge`. -/
def tick : M Unit := do
  let m ← get
  match m.remaining with
  | 0 => fail "data runtime step budget exhausted"
  | remaining + 1 => set { m with remaining := remaining }

/-- The thunk in a slot. -/
def Machine.thunkAt (m : Machine) (id : ThunkId) : Option Thunk := (m.arena[id]?).join

/-- The environment in a slot. -/
def Machine.environmentAt (m : Machine) (id : EnvId) : Option Environment :=
  (m.environments[id]?).join

/-- The global of this name. -/
def Machine.global (m : Machine) (name : String) : Option ThunkId := m.globals.lookup name

/-- `self.arena[id] = Some(thunk)`. -/
def store (id : ThunkId) (thunk : Thunk) : M Unit := do
  let m ← get
  if id < m.arena.length then set { m with arena := m.arena.set id (some thunk) }
  else throw .outOfBounds

/-- `State::allocated`. -/
def Machine.allocated (m : Machine) : Machine := { m with allocationDebt := m.allocationDebt + 1 }

variable (setting : Setting)

/-- `Machine::allocate`. -/
def allocate (thunk : Thunk) : M ThunkId := do
  let m ← get
  match m.freeThunks with
  | id :: free =>
    set { m with freeThunks := free }
    store id thunk
    modify Machine.allocated
    return id
  | [] =>
    if setting.limits.arena ≤ m.arena.length then fail "data runtime thunk budget exhausted"
    else
      set { m with arena := m.arena ++ [some thunk] }
      modify Machine.allocated
      return m.arena.length

/-- `Machine::environment`. -/
def environment (parent : EnvId) (bindings : List (Nat × ThunkId)) : M EnvId := do
  let m ← get
  match m.freeEnvironments with
  | id :: free =>
    if id < m.environments.length then
      set { m with
        freeEnvironments := free
        environments := m.environments.set id (some ⟨some parent, bindings⟩) }
      modify Machine.allocated
      return id
    else throw .outOfBounds
  | [] =>
    if setting.limits.arena ≤ m.environments.length then
      fail "data runtime environment budget exhausted"
    else
      set { m with
        environments := m.environments ++ [some (⟨some parent, bindings⟩ : Environment)] }
      modify Machine.allocated
      return m.environments.length

/-- `Machine::push`. -/
def push (frame : Frame) (frames : List Frame) : M (List Frame) :=
  if setting.limits.frames ≤ frames.length then fail "data runtime continuation depth exhausted"
  else return frame :: frames

/-- `Machine::variable`, at most `gas` scopes up. -/
def variableLoop : Nat → EnvId → Nat → M ThunkId
  | 0, _, _ => fail "data runtime step budget exhausted"
  | gas + 1, scope, binder => do
    tick
    let m ← get
    match m.environmentAt scope with
    | none => fail "invalid runtime environment reference"
    | some current =>
      match current.bindings.find? (·.1 = binder) with
      | some (_, thunk) => return thunk
      | none =>
        match current.parent with
        | none => fail "unbound runtime variable"
        | some parent => variableLoop gas parent binder

/-- `Machine::variable`.  Every scope is charged, so the budget bounds the search. -/
def variable_ (scope : EnvId) (binder : Nat) : M ThunkId := do
  let m ← get
  variableLoop (m.remaining + 1) scope binder

/-! ## 4. What the operations on the arena do -/

variable {setting} {m : Machine}

theorem tick_exhausted (hremaining : m.remaining = 0) :
    tick m = .error (.new "data runtime step budget exhausted") m := by
  show (match m.remaining with
    | 0 => fail "data runtime step budget exhausted"
    | r + 1 => set { m with remaining := r } : M Unit) m = _
  rw [hremaining]
  rfl

theorem tick_run {r : Nat} (hremaining : m.remaining = r + 1) :
    tick m = .ok () { m with remaining := r } := by
  show (match m.remaining with
    | 0 => fail "data runtime step budget exhausted"
    | r + 1 => set { m with remaining := r } : M Unit) m = _
  rw [hremaining]
  rfl

theorem store_run {id : ThunkId} {thunk : Thunk} (hid : id < m.arena.length) :
    store id thunk m = .ok () { m with arena := m.arena.set id (some thunk) } := by
  show (if id < m.arena.length then set { m with arena := m.arena.set id (some thunk) }
    else throw .outOfBounds : M Unit) m = _
  rw [if_pos hid]
  rfl

/-- A free slot is used again. -/
theorem allocate_free {id : ThunkId} {free : List ThunkId} {thunk : Thunk}
    (hfree : m.freeThunks = id :: free) (hid : id < m.arena.length) :
    allocate setting thunk m = .ok id { m with
      freeThunks := free
      arena := m.arena.set id (some thunk)
      allocationDebt := m.allocationDebt + 1 } := by
  rcases m with ⟨arena, environments, freeThunks, a, b, c, d, e, f⟩
  cases hfree
  show EStateM.bind (store id thunk) _ _ = _
  rw [EStateM.bind, store_run (by exact hid)]
  rfl

/-- Without a free slot the arena grows. -/
theorem allocate_new {thunk : Thunk} (hfree : m.freeThunks = [])
    (hroom : m.arena.length < setting.limits.arena) :
    allocate setting thunk m = .ok m.arena.length { m with
      arena := m.arena ++ [some thunk]
      allocationDebt := m.allocationDebt + 1 } := by
  rcases m with ⟨arena, environments, freeThunks, a, b, c, d, e, f⟩
  cases hfree
  show (if setting.limits.arena ≤ arena.length then _ else _ : M ThunkId) _ = _
  rw [if_neg (Nat.not_le.2 hroom)]
  rfl

/-- A full arena refuses. -/
theorem allocate_full {thunk : Thunk} (hfree : m.freeThunks = [])
    (hroom : setting.limits.arena ≤ m.arena.length) :
    allocate setting thunk m = .error (.new "data runtime thunk budget exhausted") m := by
  rcases m with ⟨arena, environments, freeThunks, a, b, c, d, e, f⟩
  cases hfree
  show (if setting.limits.arena ≤ arena.length then _ else _ : M ThunkId) _ = _
  rw [if_pos hroom]
  rfl
end TeamyBend.Runtime.Evaluator
