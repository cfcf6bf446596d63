/-
# Suspending an expression

How the machine makes a thunk of an expression (`Machine::expression`, `Machine::reference`), with
the words it can read off without demanding anything (`numeric_available.rs`) and the literals it
packs (`packed.rs`, `nat.rs`).

The word search of the source is a loop over what it looks for next: a variable in a scope, a
thunk, or an expression in its scope.  Here these are three constructors of one type.
-/
import TeamyBend.Runtime.Thunks

namespace TeamyBend.Runtime.Evaluator

open Kernel (Term)

/-! ## 1. Literals -/

/-- `packed::literal` from a bit on: `left` bits are still to be read. -/
def wordLiteral : Nat → Term → UInt32 → Option UInt32
  | 0, .Ctr name [], bits => if name = "WNil" then some bits else none
  | left + 1, .Ctr name [.Ctr head [], tail], bits =>
    if name = "WCon" then
      if head = "True" then wordLiteral left tail (bits ||| (1 <<< UInt32.ofNat (31 - left)))
      else if head = "False" then wordLiteral left tail bits
      else none
    else none
  | _, _, _ => none

/-- `packed::literal`. -/
def packedLiteral (name : String) (fields : List Term) : Option Value :=
  match Wrapper.fromName name, fields with
  | some wrapper, [word] => (wordLiteral 32 word 0).map (Value.PackedWord wrapper)
  | _, _ => none

/-- `nat::literal`, reading at most `gas` constructors. -/
def natLiteralLoop : Nat → String → List Term → Nat → Option Value
  | 0, _, _, _ => none
  | gas + 1, name, fields, value =>
    match fields with
    | [] => if name = "Zero" then some (.PackedNat value) else none
    | [.Ctr next args] => if name = "Succ" then natLiteralLoop gas next args (value + 1) else none
    | _ => none

/-- `nat::literal`. -/
def natLiteral (name : String) (fields : List Term) : Option Value :=
  natLiteralLoop (Limits.runtime.frames + 1) name fields 0

/-! ## 2. What is already available -/

/-- `INSPECTION_LIMIT`. -/
def inspectionLimit : Nat := 32

variable (setting : Setting)

/-- `Machine::available_binding`, at most `gas` scopes up. -/
def availableBindingLoop : Nat → EnvId → Nat → M (Option ThunkId)
  | 0, _, _ => return none
  | gas + 1, scope, binder => do
    tick
    let m ← get
    match m.environmentAt scope with
    | none => return none
    | some current =>
      match current.bindings.find? (·.1 = binder) with
      | some (_, target) => return some target
      | none =>
        match current.parent with
        | none => return none
        | some parent => availableBindingLoop gas parent binder

/-- `Machine::available_binding`. -/
def availableBinding (scope : EnvId) (binder : Nat) : M (Option ThunkId) :=
  availableBindingLoop inspectionLimit scope binder

/-- What the search for a word looks at next. -/
inductive Sought where
  | Binder (id : Nat) (scope : EnvId)
  | Slot (id : ThunkId) (scope : EnvId)
  | Expression (expression : Term) (scope : EnvId)

/-- An expression of the word search: the word it is, or what to look at instead. -/
def inspect (expression : Term) (scope : EnvId) : Option UInt32 ⊕ Sought :=
  match expression with
  | .Var _ id => .inr (.Binder id scope)
  | .Ann body _ => .inr (.Expression body scope)
  | .Rwt _ _ body => .inr (.Expression body scope)
  | .Ctr name args =>
    match packedLiteral name args with
    | some (.PackedWord .U32 bits) => .inl (some bits)
    | _ => .inl none
  | _ => .inl none

/-- A slot of the word search. -/
def inspectSlot (m : Machine) (id : ThunkId) (scope : EnvId) : Option UInt32 ⊕ Sought :=
  match m.thunkAt id with
  | some (.Ready (.PackedWord .U32 bits)) => .inl (some bits)
  | some (.Alias target) => .inr (.Slot target scope)
  | some (.Expression value inner) => inspect value inner
  | _ => .inl none

/-- One turn of the loop of `Machine::available_word`, after its charge. -/
def inspectNext (m : Machine) : Sought → Option UInt32 ⊕ Sought
  | .Binder id scope =>
    match m.environmentAt scope with
    | none => .inl none
    | some current =>
      match current.bindings.find? (·.1 = id) with
      | some (_, target) => inspectSlot m target scope
      | none =>
        match current.parent with
        | some parent => .inr (.Binder id parent)
        | none => .inl none
  | .Slot id scope => inspectSlot m id scope
  | .Expression expression scope => inspect expression scope

/-- `Machine::available_word`, for `gas` turns. -/
def availableWordLoop : Nat → Sought → M (Option UInt32)
  | 0, _ => return none
  | gas + 1, sought => do
    tick
    let m ← get
    match inspectNext m sought with
    | .inl found => return found
    | .inr next => availableWordLoop gas next

/-- `Machine::available_word`. -/
def availableWord (expression : Term) (scope : EnvId) : M (Option UInt32) :=
  availableWordLoop inspectionLimit (.Expression expression scope)

/-- The words of the arguments, where every one is available. -/
def availableWords (scope : EnvId) : List Term → M (Option (List UInt32))
  | [] => return some []
  | argument :: arguments => do
    match ← availableWord argument scope with
    | none => return none
    | some bits =>
      match ← availableWords scope arguments with
      | none => return none
      | some words => return some (bits :: words)

/-- `PureOptimization::result` on the words of a list. -/
def resultOf (operation : PureOptimization) (words : List UInt32) : Option UInt32 :=
  if h : words.length = operation.arity then some (operation.result ⟨words.toArray, by simpa⟩)
  else none

/-- A call `f x` or `f x y` of a name: the name and the arguments. -/
def namedCall (expression : Term) : Option (String × List Term) :=
  match expression with
  | .App (.App (.Ref name) first) last => some (name, [first, last])
  | .App (.App (.GpuRef name) first) last => some (name, [first, last])
  | .App (.Ref name) last => some (name, [last])
  | .App (.GpuRef name) last => some (name, [last])
  | _ => none

/-- `Machine::available_numeric`. -/
def availableNumeric (expression : Term) (scope : EnvId) : M (Option UInt32) := do
  if ¬setting.program.packed then return none
  match expression with
  | .Ctr name _ => if name = "U32" then availableWord expression scope else return none
  | _ =>
    match namedCall expression with
    | none => return none
    | some (name, arguments) =>
      match setting.program.optimizations.find?
          fun operation => operation.name = name ∧ operation.arity = arguments.length with
      | none => return none
      | some operation =>
        match ← availableWords scope arguments with
        | none => return none
        | some words => return resultOf operation words

/-! ## 3. Expressions and references -/

/-- `Machine::expression` past the two cases that share an existing thunk. -/
def suspend (expression : Term) (scope : EnvId) : M ThunkId := do
  match ← availableNumeric setting expression scope with
  | some bits => allocate setting (.Ready (.PackedWord .U32 bits))
  | none => allocate setting (.Expression expression scope)

/-- `Machine::expression` of a reference in a packed program. -/
def suspendReference (expression : Term) (name : String) : M ThunkId := do
  let m ← get
  match m.global name with
  | some target => return target
  | none => allocate setting (.Expression expression 0)

/-- `Machine::expression`. -/
def expression (expression : Term) (scope : EnvId) : M ThunkId :=
  if setting.program.packed then
    match expression with
    | .Var _ id => do
      match ← availableBinding scope id with
      | some target => return target
      | none => suspend setting expression scope
    | .Ref name => suspendReference setting expression name
    | .GpuRef name => suspendReference setting expression name
    | _ => suspend setting expression scope
  else suspend setting expression scope

/-- `Machine::expression` on a list of expressions. -/
def expressions (scope : EnvId) : List Term → M (List ThunkId)
  | [] => return []
  | e :: es => do
    let id ← expression setting e scope
    let ids ← expressions scope es
    return id :: ids

/-- The thunk of a global that has none yet. -/
def resolve (name : String) : M ThunkId :=
  let program := setting.program
  match program.numeric.lookup name with
  | some intrinsic => allocate setting (.Ready (.Numeric (.Intrinsic intrinsic) []))
  | none =>
    match program.optimizations.find? (·.name = name) with
    | some operation => allocate setting (.Ready (.Numeric (.Optimized operation) []))
    | none =>
      match program.natOptimizations.find? (·.name = name) with
      | some operation => allocate setting (.Ready (.Natural operation []))
      | none =>
        if (program.foreign.lookup name).isSome then allocate setting (.Ready (.Foreign name []))
        else
          match program.definitions.lookup name with
          | some definition =>
            match definition.body with
            | none => fail "unchecked open definition reached runtime"
            | some body => expression setting body 0
          | none =>
            if (program.datatypes.lookup name).isSome then allocate setting (.Ready .Erased)
            else fail ("undefined runtime reference " ++ name)

/-- `Machine::reference`. -/
def reference (name : String) : M ThunkId := do
  let m ← get
  match m.global name with
  | some id => return id
  | none =>
    let id ← resolve setting name
    modify fun m => { m with globals := (name, id) :: m.globals }
    return id

/-- The applications of a thunk to further arguments. -/
def applications (function : ThunkId) : List ThunkId → M ThunkId
  | [] => return function
  | argument :: arguments => do
    let function ← allocate setting (.Application function argument)
    applications function arguments

/-- `Machine::ready_constructor`. -/
def readyConstructor (name : String) (fields : List ThunkId) : M ThunkId :=
  allocate setting (.Ready (.Constructor name fields))

/-- The bits of a word from `left` downwards, in front of `word`. -/
def wordSpine (result : UInt32) : Nat → ThunkId → M ThunkId
  | 0, word => return word
  | left + 1, word => do
    let bit := if result &&& (1 <<< UInt32.ofNat left) = 0 then "False" else "True"
    let head ← readyConstructor setting bit []
    let word ← readyConstructor setting "WCon" [head, word]
    wordSpine result left word

/-- `Machine::numeric_word_value`. -/
def numericWordValue (wrapper : String) (result : UInt32) : M ThunkId := do
  if setting.program.packed then
    match Wrapper.fromName wrapper with
    | none => fail "numeric result has an invalid wrapper"
    | some wrapper => allocate setting (.Ready (.PackedWord wrapper result))
  else
    let word ← readyConstructor setting "WNil" []
    let word ← wordSpine setting result 32 word
    readyConstructor setting wrapper [word]

/-- The characters of a text in front of a list, the last one first (the loop of
`finish_nat` and of `numeric_result`). -/
def textSpine : List Nat → ThunkId → M ThunkId
  | [], result => return result
  | byte :: bytes, result => do
    tick
    let code ← numericWordValue setting "U32" (UInt32.ofNat byte)
    let character ← readyConstructor setting "Chr" [code]
    let result ← readyConstructor setting "SCon" [character, result]
    textSpine bytes result

end TeamyBend.Runtime.Evaluator
