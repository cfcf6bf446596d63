/-
# Forcing a thunk

The evaluator of `runtime/mod.rs` with the strict demand of `demand.rs`.  One turn of the outer
loop of `Machine::force` looks at the current thunk, one turn of the inner loop hands a value to
the innermost frame; a run alternates the two until the frames are used up.

Every turn is charged, so the step budget bounds the number of turns.
-/
import TeamyBend.Runtime.Collection

namespace TeamyBend.Runtime.Evaluator

open Kernel (Term LetBinding)

/-- Where a run stands between two turns. -/
inductive Control where
  | Enter (current : ThunkId)
  | Return (value : Value)

variable (setting : Setting)

/-! ## 1. Updates and constructors -/

/-- `Machine::push_update`. -/
def pushUpdate (id : ThunkId) (frames : List Frame) : M (List Frame) := do
  match frames with
  | .Update target :: _ =>
    store id (.Alias target)
    return frames
  | _ =>
    store id .Evaluating
    push setting (.Update id) frames

/-- The chain a new pending constructor continues, and the frames below it. -/
def splitChain : List Frame → Option ThunkId × List Frame
  | .CompleteConstructorChain parent :: frames => (some parent, frames)
  | frames => (none, frames)

/-- `Machine::compress_constructor_tail`. -/
def compressConstructorTail (frames : List Frame) : M (List Frame) := do
  match frames with
  | .Update child :: .Constructor name fields next :: .Update root :: rest =>
    if next = fields.length then
      tick
      let (parent, rest) := splitChain rest
      store root (.PendingConstructor name fields parent)
      let rest ← push setting (.CompleteConstructorChain root) rest
      push setting (.Update child) rest
    else return frames
  | _ => return frames

/-- `Machine::strict_constructor`. -/
def strictConstructor (name : String) (fields : List ThunkId) (last : Value) : M Value :=
  if setting.program.packed ∧ name = "Succ" ∧ fields.length = 1 then
    match last with
    | .PackedNat tail => do
      let value ← bounded (tail + 1) "native Nat exceeds the 48-bit bound"
      return .PackedNat value
    | _ => fail "native successor has a non-Nat field"
  else return .Constructor name fields

/-- `Machine::complete_constructor_chain`, for at most `gas` constructors. -/
def completeLoop : Nat → ThunkId → Value → M Value
  | 0, _, _ => fail "data runtime step budget exhausted"
  | gas + 1, head, value => do
    tick
    let m ← get
    match m.thunkAt head with
    | some (.PendingConstructor name fields parent) =>
      let value ← strictConstructor setting name fields value
      store head (.Ready value)
      match parent with
      | none => return value
      | some parent => completeLoop gas parent value
    | _ => fail "invalid pending constructor chain"

/-- `Machine::complete_constructor_chain`. -/
def completeConstructorChain (head : ThunkId) (value : Value) : M Value := do
  let m ← get
  completeLoop setting (m.remaining + 1) head value

/-! ## 2. Entering a thunk -/

/-- The simultaneous bindings of a `let`. -/
def letBindings (scope : EnvId) : List (LetBinding Term) → M (List (Nat × ThunkId))
  | [] => return []
  | b :: bs => do
    let id ← expression setting b.value scope
    let bindings ← letBindings scope bs
    return (b.id, id) :: bindings

/-- A constructor whose fields are now thunks. -/
def enterFields (name : String) (fields : List ThunkId) (frames : List Frame) :
    M (Control × List Frame) := do
  match fields with
  | [] => return (.Return (.Constructor name fields), frames)
  | first :: _ =>
    if setting.program.strict then
      let frames ← if setting.compressing then compressConstructorTail setting frames
        else pure frames
      let frames ← push setting (.Constructor name fields 1) frames
      return (.Enter first, frames)
    else return (.Return (.Constructor name fields), frames)

/-- The value of a literal, in a packed program. -/
def literalOf (name : String) (args : List Term) : Option Value :=
  if setting.program.packed then packedLiteral name args <|> natLiteral name args else none

/-- Entering an expression whose own slot is already under an update. -/
def enterExpression (term : Term) (scope : EnvId) (frames : List Frame) :
    M (Control × List Frame) := do
  match term with
  | .Var _ id =>
    let current ← variable_ scope id
    return (.Enter current, frames)
  | .Ref name | .GpuRef name =>
    let current ← reference setting name
    return (.Enter current, frames)
  | .Lam _ id body => return (.Return (.Closure id body scope), frames)
  | .App function argument =>
    let argument ← expression setting argument scope
    let frames ← push setting (.Apply argument) frames
    let current ← expression setting function scope
    return (.Enter current, frames)
  | .Ctr name args =>
    match literalOf setting name args with
    | some value => return (.Return value, frames)
    | none =>
      let fields ← expressions setting scope args
      enterFields setting name fields frames
  | .Mat constructor arm fallback =>
    let arm ← expression setting arm scope
    let fallback ← expression setting fallback scope
    return (.Return (.Match constructor arm fallback), frames)
  | .Let bindings body =>
    let bindings ← letBindings setting scope bindings
    let scope ← environment setting scope bindings
    let current ← expression setting body scope
    return (.Enter current, frames)
  | .Ann body _ | .Rwt _ _ body =>
    let current ← expression setting body scope
    return (.Enter current, frames)
  | .Efq => return (.Return .Impossible, frames)
  | .Hole _ => fail "unchecked hole reached data runtime"
  | _ => return (.Return .Erased, frames)

/-- One turn of the outer loop of `Machine::force`. -/
def enter (current : ThunkId) (frames : List Frame) : M (Control × List Frame) := do
  collectionSafePoint setting current frames
  tick
  let m ← get
  match m.thunkAt current with
  | none => fail "invalid runtime thunk reference"
  | some (.Ready value) => return (.Return value, frames)
  | some (.Alias target) => return (.Enter target, frames)
  | some .Evaluating => fail "cyclic data runtime evaluation"
  | some (.PendingConstructor _ _ _) => fail "cyclic data runtime evaluation"
  | some (.Application function argument) =>
    let frames ← pushUpdate setting current frames
    let frames ← push setting (.Apply argument) frames
    return (.Enter function, frames)
  | some (.Expression term scope) =>
    let frames ← pushUpdate setting current frames
    enterExpression setting term scope frames

/-! ## 3. Returning to a frame -/

/-- `Machine::apply_foreign`. -/
def applyForeign (name : String) (arguments : List ThunkId) (argument : ThunkId) : M ThunkId := do
  match setting.program.foreign.lookup name with
  | none => fail "foreign declaration metadata is absent"
  | some declared =>
    let arguments := arguments ++ [argument]
    if arguments.length = declared + 2 then
      match arguments[declared + 1]? with
      | none => throw .outOfBounds
      | some continuation =>
        allocate setting (.Ready (.Request name (arguments.take declared) continuation))
    else allocate setting (.Ready (.Foreign name arguments))

/-- A run that goes on at a thunk. -/
def entering (result : M (ThunkId × List Frame)) : M (Control × List Frame) := do
  let (current, frames) ← result
  return (.Enter current, frames)

/-- A value that is applied to a thunk. -/
def applyValue (value : Value) (argument : ThunkId) (frames : List Frame) :
    M (Control × List Frame) := do
  match value with
  | .Closure binder body scope =>
    let scope ← environment setting scope [(binder, argument)]
    let current ← expression setting body scope
    return (.Enter current, frames)
  | .Match constructor arm fallback =>
    let frames ← push setting (.Match constructor arm fallback argument) frames
    return (.Enter argument, frames)
  | .Impossible => fail "entered an impossible runtime match branch"
  | .Foreign name arguments =>
    let current ← applyForeign setting name arguments argument
    return (.Enter current, frames)
  | .Numeric operation arguments =>
    entering (applyNumeric setting operation arguments argument frames)
  | .Natural operation arguments => entering (applyNat setting operation arguments argument frames)
  | .EmitContinuation =>
    let current ← allocate setting (.Ready (.Constructor "Emit" [argument]))
    return (.Enter current, frames)
  | _ => fail "runtime application of a non-function"

/-- `matches!(self.arena[argument], Some(Thunk::Ready(_)))`. -/
def isReady (argument : ThunkId) : M Bool := do
  let m ← get
  match m.arena[argument]? with
  | none => throw .outOfBounds
  | some (some (.Ready _)) => return true
  | some _ => return false

/-- A value that reaches a match. -/
def selectArm (value : Value) (constructor : String) (arm fallback argument : ThunkId)
    (frames : List Frame) : M (Control × List Frame) := do
  match value with
  | .Request _ _ _ => throw (.requestOutOfBand
      "runtime fail-stop: a foreign effect request cannot be matched as constructor data")
  | _ =>
    let (name, fields) ← constructorValue setting value
    if name = constructor then
      let current ← applications setting arm fields
      return (.Enter current, frames)
    else
      let current ← allocate setting (.Application fallback argument)
      return (.Enter current, frames)

/-- A value that reaches a frame. -/
def resume (value : Value) : Frame → List Frame → M (Control × List Frame)
  | .Update id, frames => do
    store id (.Ready value)
    return (.Return value, frames)
  | .Numeric frame, frames => entering (numericStep setting frame value frames)
  | .Natural state, frames => entering (natStep setting state value frames)
  | .Apply argument, frames => do
    if setting.program.strict then
      if ← isReady argument then applyValue setting value argument frames
      else
        let frames ← push setting (.ResumeCall value argument) frames
        return (.Enter argument, frames)
    else applyValue setting value argument frames
  | .Call argument, frames => applyValue setting value argument frames
  | .ResumeCall function argument, frames => do
    let frames ← push setting (.Call argument) frames
    return (.Return function, frames)
  | .Constructor name fields next, frames => do
    match fields[next]? with
    | some field =>
      let frames ← push setting (.Constructor name fields (next + 1)) frames
      return (.Enter field, frames)
    | none =>
      let value ← strictConstructor setting name fields value
      return (.Return value, frames)
  | .CompleteConstructorChain head, frames => do
    let value ← completeConstructorChain setting head value
    return (.Return value, frames)
  | .Match constructor arm fallback argument, frames =>
    selectArm setting value constructor arm fallback argument frames

/-! ## 4. Runs -/

/-- How a turn ends: with the value of the whole run, or at the next turn. -/
inductive Turn where
  | Done (value : Value)
  | Next (control : Control) (frames : List Frame)

/-- One turn. -/
def turn : Control → List Frame → M Turn
  | .Enter current, frames => do
    let (control, frames) ← enter setting current frames
    return .Next control frames
  | .Return value, [] => do
    tick
    return .Done value
  | .Return value, frame :: frames => do
    tick
    let (control, frames) ← resume setting value frame frames
    return .Next control frames

/-- The turns of a run, at most `gas` of them. -/
def turns : Nat → Control → List Frame → M Value
  | 0, _, _ => fail "data runtime step budget exhausted"
  | gas + 1, control, frames => do
    match ← turn setting control frames with
    | .Done value => return value
    | .Next control frames => turns gas control frames

/-- `Machine::force`. -/
def force (current : ThunkId) : M Value := do
  let m ← get
  turns setting (m.remaining + 1) (.Enter current) []

end TeamyBend.Runtime.Evaluator
