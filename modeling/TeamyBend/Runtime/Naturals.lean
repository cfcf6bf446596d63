/-
# Compact naturals

The naturals of the data runtime (`nat.rs`, and `constructor_value` of `packed.rs`).  A natural is
an immediate `PackedNat` of at most 48 bits, a `NatPrefix` of successors in front of a thunk that
nobody has demanded, or a constructor.  An operation replaces a checked body of the Base: it
demands its operands on the continuation, and where an operand does not fit it enters the body
itself.
-/
import TeamyBend.Runtime.NumericCalls

namespace TeamyBend.Runtime.Evaluator

/-- `nat::MAX`. -/
def natMax : Nat := 281474976710655

/-- `nat::prefix_count`. -/
def prefixCount (count : Nat) : M Nat :=
  if count = 0 ∨ natMax < count then fail "invalid native Nat prefix" else return count

variable (setting : Setting)

/-! ## 1. Building naturals -/

/-- `Machine::nat_prefix`. -/
def natPrefix (count : Nat) (tail : ThunkId) : M ThunkId := do
  if ¬setting.program.packed ∨ 2 * natMax < count then
    fail "invalid native Nat prefix construction"
  else if count = 0 then return tail
  else if natMax < count then
    let tail ← allocate setting (.Ready (.NatPrefix (count - natMax) tail))
    allocate setting (.Ready (.NatPrefix natMax tail))
  else allocate setting (.Ready (.NatPrefix count tail))

/-- `Machine::nat`. -/
def nat (value : Nat) : M ThunkId :=
  if ¬setting.program.packed then fail "native Nat requires sealed Base layouts"
  else if natMax < value then fail "native Nat exceeds the 48-bit bound"
  else allocate setting (.Ready (.PackedNat value))

/-- `Machine::deferred_nat`. -/
def deferredNat (operation : NatOperation) (arguments : List ThunkId) : M ThunkId := do
  let function ← reference setting operation.name
  applications setting function arguments

/-- `Machine::ordinary_nat`. -/
def ordinaryNat (operation : NatOperation) (arguments : List ThunkId) : M ThunkId := do
  match (setting.program.definitions.lookup operation.name).bind (·.body) with
  | none => fail "native Nat optimization has no checked body"
  | some body =>
    let function ← expression setting body 0
    applications setting function arguments

/-- `Machine::constructor_value`. -/
def constructorValue : Value → M (String × List ThunkId)
  | .NatPrefix count tail => do
    tick
    let count ← prefixCount count
    let tail ← natPrefix setting (count - 1) tail
    return ("Succ", [tail])
  | .Constructor name fields => return (name, fields)
  | .PackedNat value => do
    tick
    if value = 0 then return ("Zero", [])
    else
      let tail ← nat setting (value - 1)
      return ("Succ", [tail])
  | .PackedWord wrapper bits => do
    tick
    let word ← allocate setting (.Ready (.PackedBits bits 32))
    return (wrapper.name, [word])
  | .PackedBits bits width => do
    tick
    if ¬validBits bits width then fail "invalid packed Word width or bits"
    else if width = 0 then return ("WNil", [])
    else
      let head ← readyConstructor setting (if bits &&& 1 = 0 then "False" else "True") []
      let tail ← allocate setting (.Ready (.PackedBits (bits >>> 1) (width - 1)))
      return ("WCon", [head, tail])
  | .Request _ _ _ => throw (.requestOutOfBand
      "runtime fail-stop: a foreign effect request cannot be inspected as constructor data")
  | _ => fail "runtime match expected constructor data"

/-! ## 2. Operations on naturals -/

/-- An operation that waits for the thunk it demands. -/
def demandNatural (state : Evaluation) (next : ThunkId) (frames : List Frame) :
    M (ThunkId × List Frame) := do
  let frames ← push setting (.Natural state) frames
  return (next, frames)

/-- `Machine::apply_nat`. -/
def applyNat (operation : NatOperation) (arguments : List ThunkId) (argument : ThunkId)
    (frames : List Frame) : M (ThunkId × List Frame) := do
  let arguments := arguments ++ [argument]
  if arguments.length < operation.arity then
    let id ← allocate setting (.Ready (.Natural operation arguments))
    return (id, frames)
  else if arguments.length ≠ operation.arity then
    fail "native Nat operation has invalid arity"
  else
    match arguments[if operation = .ArrayNew then 1 else 0]? with
    | none => throw .outOfBounds
    | some first => demandNatural setting ⟨operation, arguments, [], 0⟩ first frames

/-- `u64::checked_add` and `u64::checked_mul` under the bound on naturals. -/
def bounded (value : Nat) (message : String) : M Nat :=
  if value ≤ natMax then return value else throw (.natOverflow message)

/-- The successors of a value and what follows them, where it is a compact natural. -/
def prefixParts : Value → M (Option (Nat × Option ThunkId))
  | .PackedNat count => return if count ≤ natMax then some (count, none) else none
  | .NatPrefix count tail => do
    let count ← prefixCount count
    return some (count, some tail)
  | _ => return none

/-- `Machine::prefix_arithmetic`. -/
def prefixArithmetic (state : Evaluation) (value : Value) : M ThunkId := do
  match ← prefixParts value with
  | none => ordinaryNat setting state.operation state.arguments
  | some (count, tail) =>
    match state.operation, tail, state.arguments with
    | .Add, some tail, [_, right] =>
      let tail ← deferredNat setting .Add [tail, right]
      natPrefix setting count tail
    | .Add, none, [_, right] => natPrefix setting count right
    | .Double, some tail, _ =>
      let tail ← deferredNat setting .Double [tail]
      natPrefix setting (count * 2) tail
    | .Double, none, _ =>
      let tail ← nat setting 0
      natPrefix setting (count * 2) tail
    | _, _, _ => throw .outOfBounds

/-- What the constructors of a comparison are called. -/
def orderName (left right : Nat) : String :=
  if left < right then "LT" else if left = right then "EQ" else "GT"

/-- The decimal digits of `value.to_string()`, as bytes. -/
def decimalBytes (value : Nat) : List Nat := (Nat.toDigits 10 value).map Char.toNat

/-- `Machine::finish_nat`. -/
def finishNat (state : Evaluation) (value : Nat) : M ThunkId := do
  match state.operation, state.values with
  | .Add, [left, right] => do
    let sum ← bounded (left + right) "a Nat past the largest immediate 2^48-1"
    nat setting sum
  | .Double, [left] => do
    let sum ← bounded (left + left) "a Nat past the largest immediate 2^48-1"
    nat setting sum
  | .Mul, [left, right] => do
    let product ← bounded (left * right) "a Nat past the largest immediate 2^48-1"
    nat setting product
  | .Sub, [left, right] => nat setting (left - right)
  | .Cmp, [left, right] => readyConstructor setting (orderName left right) []
  | .FromU32, _ => nat setting value
  | .ToU32, _ => numericWordValue setting "U32" (UInt32.ofNat value)
  | .Show, _ => do
    let result ← readyConstructor setting "SNil" []
    textSpine setting (decimalBytes value).reverse result
  | _, _ => throw .outOfBounds

/-- The rest of `nat_step` on a known operand. -/
def knownOperand (state : Evaluation) (value : Nat) (frames : List Frame) :
    M (ThunkId × List Frame) := do
  if state.operation = .Mul ∧ state.values = [] ∧ value = 0 then
    let id ← nat setting 0
    return (id, frames)
  else
    let state := { state with values := state.values ++ [value] }
    if state.values.length < state.arguments.length then
      match state.arguments[state.values.length]? with
      | none => throw .outOfBounds
      | some next => demandNatural setting state next frames
    else
      let id ← finishNat setting state value
      return (id, frames)

/-- `MAX_DEPTH` of `array_depth_step`. -/
def maxDepth : Nat := 31

/-- The end of `array_depth_step`. -/
def arrayDepth (state : Evaluation) (depth : Nat) (frames : List Frame) :
    M (ThunkId × List Frame) := do
  if maxDepth < depth then throw (.arrayDepth "an array past the deepest block class 31")
  else
    let id ← ordinaryNat setting state.operation state.arguments
    return (id, frames)

/-- `u64::saturating_add`. -/
def saturatingAdd (a b : Nat) : Nat := min (a + b) 18446744073709551615

/-- `Machine::array_depth_step`. -/
def arrayDepthStep (state : Evaluation) (value : Value) (frames : List Frame) :
    M (ThunkId × List Frame) := do
  match value with
  | .PackedNat depth => arrayDepth setting state (saturatingAdd state.counted depth) frames
  | .NatPrefix count tail => do
    let count ← prefixCount count
    let state := { state with counted := saturatingAdd state.counted count }
    if state.counted ≤ maxDepth then demandNatural setting state tail frames
    else arrayDepth setting state state.counted frames
  | .Constructor name fields =>
    match fields with
    | [] =>
      if name = "Zero" then arrayDepth setting state state.counted frames
      else
        let id ← ordinaryNat setting state.operation state.arguments
        return (id, frames)
    | [next] =>
      if name = "Succ" then
        let state := { state with counted := state.counted + 1 }
        if state.counted ≤ maxDepth then demandNatural setting state next frames
        else arrayDepth setting state state.counted frames
      else
        let id ← ordinaryNat setting state.operation state.arguments
        return (id, frames)
    | _ =>
      let id ← ordinaryNat setting state.operation state.arguments
      return (id, frames)
  | _ =>
    let id ← ordinaryNat setting state.operation state.arguments
    return (id, frames)

/-- Entering the body of an operation on its original arguments. -/
def enterBody (state : Evaluation) (frames : List Frame) : M (ThunkId × List Frame) := do
  let id ← ordinaryNat setting state.operation state.arguments
  return (id, frames)

/-- A successor that `Show` and `ToU32` have read off: its count is added up. -/
def countOn (state : Evaluation) (count : Nat) (next : ThunkId) (frames : List Frame) :
    M (ThunkId × List Frame) := do
  let counted ← bounded (state.counted + count) "native Nat exceeds the 48-bit bound"
  demandNatural setting { state with counted := counted } next frames

/-- `Machine::nat_step` for the operations on naturals that demand all their operands. -/
def strictNatStep (state : Evaluation) (value : Value) (frames : List Frame) :
    M (ThunkId × List Frame) := do
  let consumes := state.operation = .Show ∨ state.operation = .ToU32
  match value with
  | .PackedWord .U32 bits =>
    if state.operation = .FromU32 then knownOperand setting state bits.toNat frames
    else enterBody setting state frames
  | .PackedNat value =>
    if state.operation ≠ .FromU32 then
      let value ← bounded (value + state.counted) "native Nat exceeds the 48-bit bound"
      knownOperand setting state value frames
    else enterBody setting state frames
  | .NatPrefix count tail =>
    if consumes then
      let count ← prefixCount count
      countOn setting state count tail frames
    else enterBody setting state frames
  | .Constructor name fields =>
    match fields with
    | [] =>
      if consumes ∧ name = "Zero" then knownOperand setting state state.counted frames
      else enterBody setting state frames
    | [next] =>
      if consumes ∧ name = "Succ" then countOn setting state 1 next frames
      else enterBody setting state frames
    | _ => enterBody setting state frames
  | _ => enterBody setting state frames

/-- `Machine::nat_step`. -/
def natStep (state : Evaluation) (value : Value) (frames : List Frame) :
    M (ThunkId × List Frame) := do
  if state.operation = .ArrayNew then arrayDepthStep setting state value frames
  else if ¬setting.program.strict ∧ (state.operation = .Add ∨ state.operation = .Double) then
    let id ← prefixArithmetic setting state value
    return (id, frames)
  else strictNatStep setting state value frames

end TeamyBend.Runtime.Evaluator
