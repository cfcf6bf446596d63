/-
# Collection of the two arenas

The mark and sweep of `gc.rs`, which runs at the safe points of the evaluator.  The marks are the
list of the nodes marked so far in place of two vectors of flags, and the work list holds the
marked nodes whose edges are still to be followed.
-/
import TeamyBend.Runtime.Naturals

namespace TeamyBend.Runtime.Evaluator

/-- `RESERVE`. -/
def reserve : Nat := 8192

/-- `COLLECTION_DEBT`. -/
def collectionDebt : Nat := 8192

/-- `gc::Node`. -/
inductive Node where
  | Thunk (id : ThunkId)
  | Environment (id : EnvId)
  deriving DecidableEq

/-- `gc::Marks`. -/
structure Marks where
  marked : List Node
  pending : List Node

/-! ## 1. Edges -/

/-- `Marks::value`. -/
def Value.nodes : Value → List Node
  | .NatPrefix _ tail => [.Thunk tail]
  | .Constructor _ fields => fields.map .Thunk
  | .Closure _ _ environment => [.Environment environment]
  | .Match _ arm fallback => [.Thunk arm, .Thunk fallback]
  | .Foreign _ arguments | .Numeric _ arguments | .Natural _ arguments => arguments.map .Thunk
  | .Request _ arguments continuation => arguments.map .Thunk ++ [.Thunk continuation]
  | _ => []

/-- `WordTarget::visit_roots`. -/
def WordTarget.nodes : WordTarget → List Node
  | .Arguments state => state.arguments.map .Thunk
  | .Character _ tail => [.Thunk tail]

/-- `NumericFrame::visit_roots`. -/
def NumericFrame.nodes : NumericFrame → List Node
  | .Ordinary state => state.arguments.map .Thunk
  | .Unwrap target | .Word target _ _ => target.nodes
  | .Bit target _ _ tail => target.nodes ++ [.Thunk tail]
  | .Text _ => []
  | .Character _ tail => [.Thunk tail]

/-- `Marks::frame`. -/
def Frame.nodes : Frame → List Node
  | .Update id | .Apply id | .Call id | .CompleteConstructorChain id => [.Thunk id]
  | .ResumeCall function argument => function.nodes ++ [.Thunk argument]
  | .Constructor _ fields _ => fields.map .Thunk
  | .Numeric frame => frame.nodes
  | .Natural state => state.arguments.map .Thunk
  | .Match _ arm fallback argument => [.Thunk arm, .Thunk fallback, .Thunk argument]

/-- What a thunk keeps alive. -/
def Thunk.nodes : Thunk → List Node
  | .Expression _ environment => [.Environment environment]
  | .Application function argument => [.Thunk function, .Thunk argument]
  | .Alias target => [.Thunk target]
  | .PendingConstructor _ fields parent => fields.map .Thunk ++ parent.toList.map .Thunk
  | .Ready value => value.nodes
  | .Evaluating => []

/-- What an environment keeps alive. -/
def Environment.nodes (environment : Environment) : List Node :=
  environment.parent.toList.map .Environment ++ environment.bindings.map fun b => .Thunk b.2

/-- Where marking starts. -/
def Machine.roots (m : Machine) (current : ThunkId) (frames : List Frame) : List Node :=
  [.Thunk current, .Environment 0] ++ frames.reverse.flatMap Frame.nodes ++
    m.globals.map (fun g => .Thunk g.2) ++ m.callerRoots.map .Thunk ++ m.hostRoots.map .Thunk

/-! ## 2. Marking -/

/-- Whether the slot of a node is within its arena. -/
def Machine.within (m : Machine) : Node → Bool
  | .Thunk id => decide (id < m.arena.length)
  | .Environment id => decide (id < m.environments.length)

/-- `Marks::thunk` and `Marks::environment`. -/
def mark (marks : Marks) (node : Node) : M Marks := do
  tick
  let m ← get
  if ¬m.within node then
    match node with
    | .Thunk _ => fail "invalid runtime thunk root"
    | .Environment _ => fail "invalid runtime environment root"
  else if node ∈ marks.marked then return marks
  else return { marked := node :: marks.marked, pending := node :: marks.pending }

/-- Marking a list of nodes. -/
def markAll (marks : Marks) : List Node → M Marks
  | [] => return marks
  | node :: nodes => do
    let marks ← mark marks node
    markAll marks nodes

/-- The edges of a node. -/
def edges (node : Node) : M (List Node) := do
  let m ← get
  match node with
  | .Thunk id =>
    match m.thunkAt id with
    | none => fail "vacant runtime thunk root"
    | some thunk => return thunk.nodes
  | .Environment id =>
    match m.environmentAt id with
    | none => fail "vacant runtime environment root"
    | some environment => return environment.nodes

/-- The loop of `Machine::collect` over the work list, for `gas` nodes. -/
def markLoop : Nat → Marks → M Marks
  | 0, _ => fail "data runtime step budget exhausted"
  | gas + 1, marks =>
    match marks.pending with
    | [] => return marks
    | node :: pending => do
      tick
      let nodes ← edges node
      let marks ← markAll { marks with pending := pending } nodes
      markLoop gas marks

/-! ## 3. Sweeping -/

/-- One tick for each slot. -/
def ticks : Nat → M Unit
  | 0 => return ()
  | n + 1 => do
    tick
    ticks n

/-- The slots that stay and the ones that become free, the highest first. -/
def sweep {α : Type} (keep : Nat → Bool) (slots : List (Option α)) : List (Option α) × List Nat :=
  (slots.mapIdx fun id slot => if keep id then slot else none,
    ((List.range slots.length).filter fun id => !keep id).reverse)

/-- `Machine::collect`. -/
def collect (current : ThunkId) (frames : List Frame) : M Unit := do
  let m ← get
  let marks ← markAll ⟨[], []⟩ (m.roots current frames)
  let m ← get
  let marks ← markLoop (m.remaining + 1) marks
  ticks m.arena.length
  ticks m.environments.length
  modify fun m =>
    let (arena, freeThunks) := sweep (fun id => decide (.Thunk id ∈ marks.marked)) m.arena
    let (environments, freeEnvironments) :=
      sweep (fun id => decide (.Environment id ∈ marks.marked)) m.environments
    { m with arena, freeThunks, environments, freeEnvironments, allocationDebt := 0 }

variable (setting : Setting)

/-- `Machine::collection_safe_point`. -/
def collectionSafePoint (current : ThunkId) (frames : List Frame) : M Unit := do
  let m ← get
  let thunkRoom := setting.limits.arena - m.arena.length + m.freeThunks.length
  let environmentRoom :=
    setting.limits.arena - m.environments.length + m.freeEnvironments.length
  if collectionDebt ≤ m.allocationDebt ∧ (thunkRoom ≤ reserve ∨ environmentRoom ≤ reserve) then
    collect current frames
  else return ()

end TeamyBend.Runtime.Evaluator
