/-
# Calls of the numeric operations

The continuation steps of `numeric.rs`: an intrinsic decodes its argument words bit by bit on the
frames of the machine, an optimized definition of the Base waits for the packed words of its
arguments and otherwise enters its own body.
-/
import TeamyBend.Runtime.Suspension

namespace TeamyBend.Runtime.Evaluator

variable (setting : Setting)

/-- `TEXT_BYTES`. -/
def textBytes : Nat := 8388608

/-- `packed::valid_bits`. -/
def validBits (bits : UInt32) (width : Nat) : Bool :=
  decide (width ≤ 32) && (width == 32 || bits >>> UInt32.ofNat width == 0)

/-- `char::from_u32`. -/
def charFromU32 (word : UInt32) : Option Char :=
  if h : word.isValidChar then some ⟨word, h⟩ else none

/-- A numeric call that waits for the thunk it demands. -/
def demandNumeric (frame : NumericFrame) (next : ThunkId) (frames : List Frame) :
    M (ThunkId × List Frame) := do
  let frames ← push setting (.Numeric frame) frames
  return (next, frames)

/-- `Machine::apply_numeric`. -/
def applyNumeric (operation : NumericOperation) (arguments : List ThunkId) (argument : ThunkId)
    (frames : List Frame) : M (ThunkId × List Frame) := do
  let arguments := arguments ++ [argument]
  if arguments.length < operation.arity then
    let id ← allocate setting (.Ready (.Numeric operation arguments))
    return (id, frames)
  if arguments.length ≠ operation.arity then fail "numeric intrinsic has an invalid arity"
  match operation, arguments with
  | _, [] => throw .outOfBounds
  | .Optimized ordinary, first :: _ =>
    demandNumeric setting (.Ordinary ⟨ordinary, arguments, []⟩) first frames
  | .Intrinsic .Read, first :: _ => demandNumeric setting (.Text "") first frames
  | operation, first :: _ =>
    demandNumeric setting (.Unwrap (.Arguments ⟨operation, arguments, []⟩)) first frames

/-- `Machine::ordinary_numeric`. -/
def ordinaryNumeric (operation : PureOptimization) (arguments : List ThunkId) : M ThunkId := do
  match (setting.program.definitions.lookup operation.name).bind (·.body) with
  | none => fail "ordinary numeric optimization has no checked body"
  | some body =>
    let function ← expression setting body 0
    applications setting function arguments

/-- The word an operation gives. -/
def wordResult (operation : NumericOperation) (words : List UInt32) : M UInt32 :=
  match operation with
  | .Intrinsic intrinsic => return setting.floats.result intrinsic words
  | .Optimized operation =>
    match resultOf operation words with
    | some result => return result
    | none => throw .outOfBounds

/-- `Machine::numeric_result`. -/
def numericResult (operation : NumericOperation) (words : List UInt32) : M ThunkId := do
  match operation, words with
  | .Intrinsic .Show, [] => throw .outOfBounds
  | .Intrinsic .Show, word :: _ =>
    let string ← readyConstructor setting "SNil" []
    textSpine setting ((setting.floats.shown word).toUTF8.toList.map UInt8.toNat).reverse string
  | _, _ =>
    let result ← wordResult setting operation words
    if operation.outputType = "Bool" then
      readyConstructor setting (if result = 0 then "False" else "True") []
    else numericWordValue setting operation.outputType result

/-- `Machine::numeric_word`. -/
def numericWord (target : WordTarget) (word : UInt32) (frames : List Frame) :
    M (ThunkId × List Frame) := do
  match target with
  | .Arguments state =>
    let words := state.words ++ [word]
    if words.length = state.arguments.length then
      let id ← numericResult setting state.operation words
      return (id, frames)
    match state.arguments[words.length]? with
    | none => throw .outOfBounds
    | some next =>
      demandNumeric setting (.Unwrap (.Arguments { state with words := words })) next frames
  | .Character text tail =>
    match charFromU32 word with
    | none => fail "numeric text contains an invalid Unicode scalar"
    | some scalar =>
      if textBytes < text.utf8ByteSize + scalar.utf8Size then
        fail "numeric text byte budget exhausted"
      demandNumeric setting (.Text (text.push scalar)) tail frames

/-- What `F32.read` gives. -/
def readResult (text : String) : M ThunkId := do
  match setting.floats.read text with
  | some bits =>
    let value ← numericWordValue setting "F32" bits
    readyConstructor setting "Some" [value]
  | none => readyConstructor setting "None" []

/-- `Machine::numeric_constructor_step`. -/
def numericConstructorStep (frame : NumericFrame) (name : String) (fields : List ThunkId)
    (frames : List Frame) : M (ThunkId × List Frame) := do
  match frame with
  | .Ordinary state =>
    let id ← ordinaryNumeric setting state.operation state.arguments
    return (id, frames)
  | .Unwrap target =>
    match fields with
    | [field] =>
      if name = target.wrapper then demandNumeric setting (.Word target 0 0) field frames
      else fail "numeric argument has an invalid wrapper"
    | _ => fail "numeric argument has an invalid wrapper"
  | .Word target bit word =>
    if bit = 32 then
      if name = "WNil" ∧ fields = [] then numericWord setting target word frames
      else fail "numeric argument needs exactly 32 Word bits"
    else
      match fields with
      | [head, tail] =>
        if name = "WCon" then demandNumeric setting (.Bit target bit word tail) head frames
        else fail "numeric argument needs a 32-bit Word"
      | _ => fail "numeric argument needs a 32-bit Word"
  | .Bit target bit word tail =>
    if fields ≠ [] then fail "numeric argument has an invalid Boolean bit"
    else if name = "True" then
      demandNumeric setting (.Word target (bit + 1) (word ||| (1 <<< UInt32.ofNat bit))) tail frames
    else if name = "False" then demandNumeric setting (.Word target (bit + 1) word) tail frames
    else fail "numeric argument has an invalid Boolean bit"
  | .Text text =>
    match fields with
    | [] =>
      if name = "SNil" then
        let id ← readResult setting text
        return (id, frames)
      else fail "numeric argument needs a String value"
    | [head, tail] =>
      if name = "SCon" then demandNumeric setting (.Character text tail) head frames
      else fail "numeric argument needs a String value"
    | _ => fail "numeric argument needs a String value"
  | .Character text tail =>
    match fields with
    | [field] =>
      if name = "Chr" then demandNumeric setting (.Unwrap (.Character text tail)) field frames
      else fail "numeric text needs a Char value"
    | _ => fail "numeric text needs a Char value"

/-- `Machine::numeric_step`. -/
def numericStep (frame : NumericFrame) (value : Value) (frames : List Frame) :
    M (ThunkId × List Frame) := do
  match frame, value with
  | .Ordinary state, .PackedWord .U32 bits =>
    let words := state.words ++ [bits]
    if words.length = state.arguments.length then
      let id ← numericResult setting (.Optimized state.operation) words
      return (id, frames)
    match state.arguments[words.length]? with
    | none => throw .outOfBounds
    | some next => demandNumeric setting (.Ordinary { state with words := words }) next frames
  | .Ordinary state, _ =>
    let id ← ordinaryNumeric setting state.operation state.arguments
    return (id, frames)
  | .Unwrap target, .PackedWord wrapper bits =>
    if wrapper.name = target.wrapper then numericWord setting target bits frames
    else fail "numeric argument has an invalid wrapper"
  | .Word target bit word, .PackedBits bits width =>
    if bit ≤ 32 ∧ width = 32 - bit ∧ validBits bits width then
      numericWord setting target
        (if bit = 32 then word else word ||| (bits <<< UInt32.ofNat bit)) frames
    else fail "numeric argument needs exactly 32 Word bits"
  | frame, .Constructor name fields => numericConstructorStep setting frame name fields frames
  | _, _ => fail "numeric argument is not constructor data"

end TeamyBend.Runtime.Evaluator
