/-
# Surface bodies and match compilation

The bodies of `surface.rs` and the compiler from rows of patterns to core matches.

A surface term here is its core term: the origins and match sites that travel beside it only serve
diagnostics.  By the time a body exists, number, character and string patterns are constructor
patterns, so `Pattern` has two cases as in the source.

`flatten_driver` is one loop over a work item and a stack of saved work.  `Current` has a third
case for its inner loop, which hands a finished value to the saved work; one turn of either loop is
one `driverStep`.  A saved call keeps the state it was made with, where the source moves parts of
it out: nothing reads them again.
-/
import TeamyBend.Kernel.Term

namespace TeamyBend.Syntax

open Kernel

/-! ## 1. Patterns and bodies -/

/-- `struct Variable`. -/
structure Variable where
  name : String
  id : Nat
  deriving DecidableEq

/-- `Variable::term`. -/
def Variable.term (v : Variable) : Term := .Var v.name v.id

/-- `Variable::lambda`. -/
def Variable.lambda (v : Variable) (body : Term) : Term := .Lam v.name v.id body

/-- `enum Pattern`. -/
inductive Pattern where
  | Variable (v : Variable)
  | Constructor (name : String) (fields : List Pattern)

mutual

/-- `Pattern::term`. -/
def Pattern.term : Pattern → Term
  | .Variable v => v.term
  | .Constructor name fields => .Ctr name (Pattern.terms fields)

/-- `Pattern::term` on the fields. -/
def Pattern.terms : List Pattern → List Term
  | [] => []
  | p :: ps => p.term :: Pattern.terms ps

end

/-- `struct Row`, over the type of bodies. -/
structure Row (B : Type) where
  patterns : List Pattern
  body : B

/-- `enum Body`. -/
inductive Body where
  | Empty
  | Reply (value : Term)
  | Local (patterns : List Pattern) (quant : Quant) (values : List Term) (body : Body)
  | Match (scrutinees : List Term) (rows : List (Row Body))

namespace Body

/-- **Induction over bodies**, with the hypothesis for rows as a statement about their members. -/
@[elab_as_elim, induction_eliminator]
theorem induct {motive : Body → Prop}
    (Empty : motive Empty)
    (Reply : ∀ value, motive (Reply value))
    (Local : ∀ patterns quant values body, motive body →
      motive (Local patterns quant values body))
    (Match : ∀ scrutinees rows, (∀ r ∈ rows, motive r.body) → motive (Match scrutinees rows))
    (b : Body) : motive b :=
  @Body.rec motive (fun rows => ∀ r ∈ rows, motive r.body) (fun r => motive r.body)
    Empty Reply Local Match (by simp) (fun _ _ h hs => by simpa using ⟨h, hs⟩)
    (fun _ _ h => h) b

mutual

/-- `Body::map_terms`. -/
def mapTerms (transform : Term → Term) : Body → Body
  | .Empty => .Empty
  | .Reply value => .Reply (transform value)
  | .Local patterns quant values body =>
    .Local patterns quant (values.map transform) (mapTerms transform body)
  | .Match scrutinees rows => .Match (scrutinees.map transform) (mapRows transform rows)

/-- `Body::map_terms` on rows. -/
def mapRows (transform : Term → Term) : List (Row Body) → List (Row Body)
  | [] => []
  | ⟨patterns, body⟩ :: rows => ⟨patterns, mapTerms transform body⟩ :: mapRows transform rows

end

@[simp] theorem mapRows_eq (transform : Term → Term) (rows : List (Row Body)) :
    mapRows transform rows = rows.map fun r => { r with body := mapTerms transform r.body } := by
  induction rows with
  | nil => rfl
  | cons r rows ih => simp [mapRows, ih]

/-- `Body::replace`. -/
def replace (body : Body) (id : Nat) (replacement : Term) : Body :=
  body.mapTerms (substitute id replacement)

end Body

/-! ## 2. Errors -/

/-- `enum FlattenError`, without the origins. -/
inductive FlattenError where
  | Other (message : String)
  | LocalBinding (binder : Nat)
  | ComputedScrutinee
  | VariableScrutinee
  | ConstructorScrutinee

/-- `FlattenError::message`. -/
def FlattenError.message : FlattenError → String
  | .Other message => message
  | .LocalBinding _ => "a match cannot scrutinize a local binding; pass it to a definition"
  | .ComputedScrutinee | .VariableScrutinee | .ConstructorScrutinee =>
    "match scrutinees must be parameters or fields, in binder order"

/-- How a flattening ends without a value: an error, or an index out of bounds. -/
inductive Halt where
  | Err (e : FlattenError)
  | Panic

/-- `"pattern compilation exceeds the resource limit of 64 levels".into()`. -/
def resourceLimit : Halt :=
  .Err (.Other "pattern compilation exceeds the resource limit of 64 levels")

/-- `limit.is_some_and(|limit| depth >= limit)`. -/
def overLimit (limit : Option Nat) (depth : Nat) : Bool := limit.any fun limit => limit ≤ depth

/-! ## 3. One step of a match -/

/-- The two counters: the next number and the next number shown. -/
structure Counters where
  fresh : Nat
  display : Nat

/-- `struct MatchState`. -/
structure MatchState where
  scrutinees : List Term
  rows : List (Row Body)
  vars : List Variable

/-- `enum MatchStep`. -/
inductive MatchStep where
  | Done (value : Term)
  | Body (depth : Nat)
  | Continue (next : MatchState) (wrap : Option Variable)
  | SkipBinder (binder : Variable)
  | Nullary (constructor : String) (next fallback : MatchState)
  | Constructor (constructor : String) (next fallback : MatchState)

/-- The error for a scrutinee that no variable is left for. -/
def scrutineeError : Term → FlattenError
  | .Var .. | .Ref _ | .GpuRef _ => .VariableScrutinee
  | .Ctr .. => .ConstructorScrutinee
  | _ => .ComputedScrutinee

/-- The first constructor in the first column. -/
def headConstructor : List (Row Body) → Except Halt (Option (String × List Pattern))
  | [] => .ok none
  | row :: rows =>
    match row.patterns with
    | [] => .error .Panic
    | .Constructor name fields :: _ => .ok (some (name, fields))
    | .Variable _ :: _ => headConstructor rows

/-- The term is the variable. -/
def isVar (t : Term) (v : Variable) : Bool :=
  match t with
  | .Var _ id => id = v.id
  | _ => false

/-- A row after a column without constructors. -/
def dropColumn (v : Variable) (row : Row Body) : Row Body :=
  match row.patterns with
  | .Variable p :: patterns => ⟨patterns, row.body.replace p.id v.term⟩
  | _ => row

/-- The variables for the fields: the pattern's own, or fresh ones for nested constructors. -/
def fieldVars : List Pattern → Counters → List Variable × Counters
  | [], c => ([], c)
  | .Variable v :: fields, c =>
    let rest := fieldVars fields c
    (v :: rest.1, rest.2)
  | .Constructor _ _ :: fields, c =>
    let rest := fieldVars fields ⟨c.fresh + 1, c.display + 1⟩
    (⟨"_" ++ toString c.display, c.fresh⟩ :: rest.1, rest.2)

/-- `format!("constructor {name} has the wrong number of fields").into()`. -/
def wrongFields (name : String) : Halt :=
  .Err (.Other ("constructor " ++ name ++ " has the wrong number of fields"))

/-- The rows for the arm and the rows for the fallback. -/
def splitRows (name : String) (arity : Nat) (fieldVars : List Variable) (first : Variable)
    (value : Term) : List (Row Body) → Except Halt (List (Row Body) × List (Row Body))
  | [] => .ok ([], [])
  | row :: rows =>
    match row.patterns with
    | [] => .error .Panic
    | .Constructor n ps :: patterns =>
      if n = name then
        if ps.length ≠ arity then .error (wrongFields name)
        else do
          let (positive, negative) ← splitRows name arity fieldVars first value rows
          return (⟨ps ++ patterns, row.body.replace first.id value⟩ :: positive, negative)
      else do
        let (positive, negative) ← splitRows name arity fieldVars first value rows
        return (positive, row :: negative)
    | .Variable v :: patterns => do
      let (positive, negative) ← splitRows name arity fieldVars first value rows
      return (⟨fieldVars.map .Variable ++ patterns,
        (row.body.replace v.id first.term).replace first.id value⟩ :: positive, row :: negative)

/-- `flatten_match_step` once the first variable is scrutinized and a row has a constructor. -/
def constructorStep (state : MatchState) (scrutinees : List Term) (first : Variable)
    (vars : List Variable) (name : String) (fields : List Pattern) (c : Counters) :
    Except Halt (MatchStep × Counters) := do
  let (fieldVars, c) := fieldVars fields c
  let value := (Pattern.Constructor name (fieldVars.map .Variable)).term
  let (positive, negative) ← splitRows name fields.length fieldVars first value state.rows
  let next : MatchState :=
    ⟨fieldVars.map Variable.term ++ scrutinees, positive, fieldVars ++ vars⟩
  let fallback : MatchState := ⟨state.scrutinees, negative, state.vars⟩
  if fields.isEmpty then return (.Nullary name next fallback, c)
  else return (.Constructor name next fallback, c)

/-- `flatten_match_step`. -/
def flattenMatchStep (limit : Option Nat) (depth : Nat) (state : MatchState) (c : Counters) :
    Except Halt (MatchStep × Counters) :=
  if overLimit limit depth then .error resourceLimit
  else
    match state.scrutinees with
    | [] =>
      match state.rows with
      | [] => .error (.Err (.Other "a match needs a case to return"))
      | _ :: _ => .ok (.Body (depth + 1), c)
    | scrutinee :: scrutinees =>
      match state.vars with
      | [] => .error (.Err (scrutineeError scrutinee))
      | first :: vars =>
        match headConstructor state.rows with
        | .error e => .error e
        | .ok constructor =>
          match state.vars.find? (isVar scrutinee) with
          | none => .ok (.SkipBinder first, c)
          | some v =>
            if constructor.isNone && !state.rows.isEmpty then
              .ok (.Continue ⟨scrutinees, state.rows.map (dropColumn v), state.vars⟩ none, c)
            else if v.id = first.id then
              match constructor with
              | none => .ok (.Done .Efq, c)
              | some (name, fields) => constructorStep state scrutinees first vars name fields c
            else .ok (.SkipBinder first, c)

/-! ## 4. The driver -/

/-- `struct LocalFrame`. -/
structure LocalFrame where
  vars : List Variable
  bindings : List Variable
  quant : Quant
  values : List Term

/-- Take the lambdas of the bindings off. -/
def takeLambdas : List Variable → Term → Except Halt Term
  | [], tail => .ok tail
  | _ :: bindings, .Lam _ _ body => takeLambdas bindings body
  | binder :: _, _ => .error (.Err (.LocalBinding binder.id))

/-- Put lambdas around a value, the first variable outermost. -/
def closeOver (vars : List Variable) (value : Term) : Term := vars.foldr Variable.lambda value

/-- `finish_local`. -/
def finishLocal (frame : LocalFrame) (tail : Term) : Except Halt Term := do
  let tail ← takeLambdas frame.bindings tail
  let bindings := (frame.bindings.zip frame.values).map fun (b, v) =>
    (⟨frame.quant, b.name, b.id, v⟩ : LetBinding Term)
  return closeOver frame.vars (.Let bindings tail)

/-- `struct MatchCall`, once its state is its own. -/
structure MatchCall where
  state : MatchState
  pending : List (String × MatchState)
  depth : Nat

/-- `enum SavedMatch`. -/
inductive SavedMatch where
  | Arm (parent : MatchCall) (constructor : String) (fallback : MatchState)
  | Fallback (parent : MatchCall) (constructor : String) (arm : Term)
  | Continue (parent : MatchCall) (wrap : Option Variable)
  | BodyReturn (parent : MatchCall)
  | Local (frame : LocalFrame)

/-- `enum Current`, with the value on its way to the saved work. -/
inductive Current where
  | Body (body : Body) (vars : List Variable) (depth : Nat)
  | Match (call : MatchCall)
  | Value (value : Term) (parent : Option MatchCall)

/-- The variables of `flatten_driver`. -/
structure Driver where
  current : Current
  saved : List SavedMatch
  counters : Counters

/-- A call that starts with a state. -/
def MatchCall.start (state : MatchState) (depth : Nat) : MatchCall := ⟨state, [], depth⟩

/-- The names of a parallel `let`. -/
def localBindings : List Pattern → Except Halt (List Variable)
  | [] => .ok []
  | .Variable v :: patterns => do return v :: (← localBindings patterns)
  | .Constructor .. :: _ => .error (.Err (.Other "a parallel let can bind only names"))

/-- A `let` of names, in the driver: its body first. -/
def enterLocal (d : Driver) (vars : List Variable) (depth : Nat) (patterns : List Pattern)
    (quant : Quant) (values : List Term) (inner : Body) : Except Halt Driver := do
  let bindings ← localBindings patterns
  return ⟨.Body inner bindings (depth + 1), .Local ⟨vars, bindings, quant, values⟩ :: d.saved,
    d.counters⟩

/-- `Current::Body` in the driver. -/
def bodyStep (limit : Option Nat) (d : Driver) (body : Body) (vars : List Variable)
    (depth : Nat) : Except Halt Driver :=
  if overLimit limit depth then .error resourceLimit
  else
    match body with
    | .Empty => .error .Panic
    | .Reply value => .ok { d with current := .Value (closeOver vars value) none }
    | .Match scrutinees rows =>
      .ok { d with current := .Match (.start ⟨scrutinees, rows, vars⟩ (depth + 1)) }
    | .Local [.Constructor name fields] _ values inner =>
      .ok { d with
        current := .Match
          (.start ⟨values, [⟨[.Constructor name fields], inner⟩], vars⟩ (depth + 1)) }
    | .Local patterns quant values inner => enterLocal d vars depth patterns quant values inner

/-- What the driver does with a match step. -/
def afterStep (d : Driver) (call : MatchCall) (c : Counters) : MatchStep → Except Halt Driver
  | .Done value => .ok ⟨.Value value (some call), d.saved, c⟩
  | .Body depth =>
    match call.state.rows with
    | [] => .error .Panic
    | row :: _ => .ok ⟨.Body row.body call.state.vars depth, .BodyReturn call :: d.saved, c⟩
  | .Continue next wrap =>
    .ok ⟨.Match (.start next (call.depth + 1)), .Continue call wrap :: d.saved, c⟩
  | .SkipBinder binder =>
    .ok ⟨.Match (.start { call.state with vars := call.state.vars.tail } (call.depth + 1)),
      .Continue call (some binder) :: d.saved, c⟩
  | .Nullary constructor next fallback =>
    .ok ⟨.Match { call with state := next, pending := (constructor, fallback) :: call.pending },
      d.saved, c⟩
  | .Constructor constructor next fallback =>
    .ok ⟨.Match (.start next (call.depth + 1)), .Arm call constructor fallback :: d.saved, c⟩

/-- `Current::Match` in the driver. -/
def matchStep (limit : Option Nat) (d : Driver) (call : MatchCall) : Except Halt Driver :=
  if overLimit limit (call.depth + call.pending.length) then .error resourceLimit
  else
    match flattenMatchStep limit call.depth call.state d.counters with
    | .error e => .error e
    | .ok (step, c) => afterStep d call c step

/-- The saved work takes a value. -/
def resume (d : Driver) (value : Term) (saved : List SavedMatch) :
    SavedMatch → Except Halt Driver
  | .Continue call wrap =>
    .ok ⟨.Value (wrap.elim value fun binder => binder.lambda value) (some call), saved, d.counters⟩
  | .Fallback parent constructor arm =>
    .ok ⟨.Value (.Mat constructor arm value) (some parent), saved, d.counters⟩
  | .Arm parent constructor fallback =>
    .ok ⟨.Match (.start fallback (parent.depth + 1)), .Fallback parent constructor value :: saved,
      d.counters⟩
  | .BodyReturn call => .ok ⟨.Value value (some call), saved, d.counters⟩
  | .Local frame => do return ⟨.Value (← finishLocal frame value) none, saved, d.counters⟩

/-- The inner loop of the driver: a pending arm first, then the saved work. -/
def valueStep (d : Driver) (value : Term) : Option MatchCall → Except Halt (Driver ⊕ Term)
  | some ⟨state, (constructor, fallback) :: pending, depth⟩ =>
    .ok (.inl ⟨.Match (.start fallback (depth + 1)),
      .Fallback ⟨state, pending, depth⟩ constructor value :: d.saved, d.counters⟩)
  | _ =>
    match d.saved with
    | [] => .ok (.inr value)
    | work :: saved => (resume d value saved work).map .inl

/-- One turn of `flatten_driver`. -/
def driverStep (limit : Option Nat) (d : Driver) : Except Halt (Driver ⊕ Term) :=
  match d.current with
  | .Body body vars depth => (bodyStep limit d body vars depth).map .inl
  | .Match call => (matchStep limit d call).map .inl
  | .Value value parent => valueStep d value parent

/-- `flatten_driver`, for a number of turns. -/
def flattenDriver (limit : Option Nat) : Nat → Driver → Option (Except Halt (Term × Counters))
  | 0, _ => none
  | turns + 1, d =>
    match driverStep limit d with
    | .error e => some (.error e)
    | .ok (.inl d) => flattenDriver limit turns d
    | .ok (.inr value) => some (.ok (value, d.counters))

/-- `flatten_occurrence`. -/
def flattenOccurrence (turns : Nat) (body : Body) (vars : List Variable) (c : Counters) :
    Option (Except Halt (Term × Counters)) :=
  flattenDriver (some 64) turns ⟨.Body body vars 0, [], c⟩

end TeamyBend.Syntax
