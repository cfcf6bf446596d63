/-
# Reduction and conversion

Weak head normal forms and the comparison of types, as `reduce.rs` and `fresh.rs` compute them.

The functions of the source call each other.  Here each one takes the function it calls back as an
argument, and `whnf` and `compare` close the knot on the bound; the loops that have no call of their
own in between run on the bound directly.

A named call unfolds only as far as its patterns go: `namedPatterns` gives the original call back
when a match meets an argument that is no constructor.  The head memo of `normalize` stands with it
in `Normalize`: it exists only while `normalize` runs, and no rule of the checker calls `normalize`.
-/
import TeamyBend.Kernel.Engine

namespace TeamyBend.Kernel

/-! ## 1. Fresh names -/

/-- `try_map_terms`. -/
def mapTerms (rule : Term → M Term) : List Term → M (List Term)
  | [] => return []
  | a :: args => do
    let a ← rule a
    let args ← mapTerms rule args
    return a :: args

/-- The bindings of a `let` in `freshen_inner`, with the body so far. -/
def freshenBindings (freshen : Term → M Term) :
    List (LetBinding Term) → Term → M (List (LetBinding Term) × Term)
  | [], body => return ([], body)
  | b :: bindings, body => do
    let id ← freshId
    let value ← freshen b.value
    let rest ← freshenBindings freshen bindings (substitute b.id (.Var b.name id) body)
    return (⟨b.quant, b.name, id, value⟩ :: rest.1, rest.2)

/-- `Engine::freshen_inner`. -/
def freshenInner (freshen : Term → M Term) : Term → M Term
  | .All quant name id domain body => do
    let x ← freshId
    let domain ← freshen domain
    let body ← freshen (substitute id (.Var name x) body)
    return .All quant name x domain body
  | .Lam name id body => do
    let x ← freshId
    let body ← freshen (substitute id (.Var name x) body)
    return .Lam name x body
  | .Let bindings body => do
    let fresh ← freshenBindings freshen bindings body
    let body ← freshen fresh.2
    return .Let fresh.1 body
  | .Typ g => do return .Typ (← freshen g)
  | .Min a b => do return .Min (← freshen a) (← freshen b)
  | .App f x => do return .App (← freshen f) (← freshen x)
  | .Ann x t => do return .Ann (← freshen x) (← freshen t)
  | .Adt name args excluded => do return .Adt name (← mapTerms freshen args) excluded
  | .Ctr name args => do return .Ctr name (← mapTerms freshen args)
  | .Mat constructor arm fallback => do
    return .Mat constructor (← freshen arm) (← freshen fallback)
  | .Eql left right ty => do return .Eql (← freshen left) (← freshen right) (← freshen ty)
  | .Rwt evidence motive body => do
    return .Rwt (← freshen evidence) (← freshen motive) (← freshen body)
  | value => return value

/-- `Engine::freshen`. -/
def freshen : Nat → Term → M Term
  | 0, _ => exhausted
  | gas + 1, value => charged (freshenInner (freshen gas) value)

/-! ## 2. Weak head normal forms -/

/-- `enum ControlFlow`. -/
inductive Flow where
  | Break (value : Term)
  | Continue (value : Term)

/-- `enum PatternArgument`. -/
inductive PatternArgument where
  | Value (value : Term)
  | EndFields

/-- The values among the pattern arguments that are left. -/
def pendingValues : List PatternArgument → List Term
  | [] => []
  | .Value value :: pending => value :: pendingValues pending
  | .EndFields :: pending => pendingValues pending

/-- A body that ends the patterns, applied to every argument that is left. -/
def applyRest (body argument : Term) (pending : List PatternArgument) (extra : List Term) : Term :=
  apply body (argument :: pendingValues pending ++ extra)

/-- The name of a reference. -/
def referenceName : Term → Option String
  | .Ref name | .GpuRef name => some name
  | _ => none

section Whnf

variable (whnf : Term → M Term)

/-- `Engine::consume`. -/
def consume : Nat → Term → Term → Bool → M (Option Term)
  | 0, _, _, _ => exhausted
  | gas + 1, function, arg, residual => do
    match ← whnf function with
    | .Lam _ id body => return some (substitute id arg body)
    | .Mat constructor arm fallback =>
      match ← whnf arg with
      | .Ctr name args =>
        if name = constructor then return some (← whnf (apply arm args))
        else consume gas fallback (.Ctr name args) true
      | _ => return none
    | .Efq => return none
    | function => if residual then return some (.App function arg) else return none

/-- The loop of `whnf_spine` over the arguments. -/
def consumeArgs (gas : Nat) : Term → Bool → List Term → M (Term × Bool)
  | result, progressed, [] => return (result, progressed)
  | result, progressed, arg :: args => do
    match ← consume whnf gas result arg false with
    | some next => consumeArgs gas next true args
    | none => consumeArgs gas (.App result arg) progressed args

/-- `Engine::named_patterns_inner`.  The next argument is the first of the list. -/
def namedPatternsInner (original : Term) (extra : List Term) :
    Nat → Term → List PatternArgument → M Flow
  | 0, _, _ => exhausted
  | _ + 1, body, [] => return .Continue (apply body extra)
  | gas + 1, body, .EndFields :: pending => do
    leave
    namedPatternsInner original extra gas body pending
  | gas + 1, body, .Value argument :: pending => do
    step
    match body with
    | .Lam _ id next => namedPatternsInner original extra gas (substitute id argument next) pending
    | .Mat constructor arm fallback =>
      match ← whnf argument with
      | .Ctr name args =>
        if name = constructor then do
          step
          enter
          namedPatternsInner original extra gas arm (args.map .Value ++ .EndFields :: pending)
        else namedPatternsInner original extra gas fallback (.Value (.Ctr name args) :: pending)
      | _ => return .Break original
    | .Efq => return .Break original
    | .Ann value _ => namedPatternsInner original extra gas value (.Value argument :: pending)
    | .Let bindings next =>
      namedPatternsInner original extra gas (expand bindings next) (.Value argument :: pending)
    | .Rwt evidence motive next =>
      match ← whnf evidence with
      | .Rfl => namedPatternsInner original extra gas next (.Value argument :: pending)
      | _ => return .Continue (applyRest (.Rwt evidence motive next) argument pending extra)
    | body => return .Continue (applyRest body argument pending extra)

/-- `Engine::named_patterns`. -/
def namedPatterns (gas : Nat) (original body : Term) (args : List Term) (arity : Nat) :
    M Flow := do
  let e ← get
  ensuring
    (namedPatternsInner whnf original (args.drop arity) gas body ((args.take arity).map .Value))
    fun e' => { e' with depth := e.depth }

/-- A call of a definition, in `whnf_spine`. -/
def namedCall (gas : Nat) (value : Term) (definition : DefDecl) (args : List Term) : M Flow :=
  match definition.body with
  | some body =>
    if definition.parameters.length ≤ args.length then do
      let body ← freshen gas body
      namedPatterns whnf gas value body args definition.parameters.length
    else return .Break value
  | none => return .Break value

/-- `Engine::whnf_spine`. -/
def whnfSpine (gas : Nat) (value : Term) : M Flow :=
  match referenceName (spine value).1 with
  | some name => do
    match (← get).defs name with
    | some definition => namedCall whnf gas value definition (spine value).2
    | none => return .Break value
  | none =>
    if (spine value).2.isEmpty then return .Break value
    else do
      let head ← whnf (spine value).1
      let (result, progressed) ← consumeArgs whnf gas head false (spine value).2
      if progressed || (referenceName (spine result).1).isSome then return .Continue result
      else return .Break result

/-- `Term::Min` in `whnf_inner`, when neither side decides alone. -/
def minOf (a b : Term) : Term :=
  match a, b with
  | _, .Qua .None => b
  | .Qua _, .Qua .Lone => b
  | _, .Qua .Many => a
  | _, _ => .Min a b

/-- One turn of the loop of `whnf_inner`: a result, or the value of the next turn. -/
def whnfTurn (gas : Nat) : Term → M Flow
  | .Var name id => do
    match (← get).aliases id with
    | some replacement => return .Continue replacement
    | none => return .Break (.Var name id)
  | .Ann x _ => return .Continue x
  | .Let bindings body => return .Continue (expand bindings body)
  | .Min a b => do
    match ← whnf a with
    | .Qua .None => return .Break (.Qua .None)
    | .Qua .Many => return .Continue b
    | a => do return .Break (minOf a (← whnf b))
  | .Rwt evidence motive body => do
    match ← whnf evidence with
    | .Rfl => return .Continue body
    | _ => return .Break (.Rwt evidence motive body)
  | .Ref name => do
    match (← get).adts name with
    | some adt => return .Break (if adt.parameters.isEmpty then .Adt name [] [] else .Ref name)
    | none => whnfSpine whnf gas (.Ref name)
  | .GpuRef name => do
    match (← get).adts name with
    | some adt => return .Break (if adt.parameters.isEmpty then .Adt name [] [] else .GpuRef name)
    | none => whnfSpine whnf gas (.GpuRef name)
  | .App f x => whnfSpine whnf gas (.App f x)
  | value => return .Break value

/-- `Engine::whnf_inner`. -/
def whnfInner (gas : Nat) : Nat → Term → M Term
  | 0, _ => exhausted
  | turns + 1, value => do
    match ← whnfTurn whnf gas value with
    | .Break result => return result
    | .Continue next => do
      step
      whnfInner gas turns next

end Whnf

/-- `Engine::whnf`. -/
def whnf : Nat → Term → M Term
  | 0, _ => exhausted
  | gas + 1, value => charged (whnfInner (whnf gas) gas gas value)

/-! ## 3. Comparison -/

/-- `enum Comparison`. -/
inductive Comparison where
  | Equal
  | Fits
  deriving DecidableEq

section Compare

variable (whnf : Term → M Term) (compare : Comparison → Term → Term → M Bool)

/-- `a? && b?`. -/
def both (a b : M Bool) : M Bool := do
  if ← a then b else return false

/-- `Engine::compare_list`, on lists of one length. -/
def compareArgs : List Term → List Term → M Bool
  | x :: xs, y :: ys => both (compare .Equal x y) (compareArgs xs ys)
  | _, _ => return true

/-- `Engine::compare_list`. -/
def compareList (a b : List Term) : M Bool :=
  if a.length ≠ b.length then return false else compareArgs compare a b

/-- Two kinds in `compare_inner`, when the first must fit the second. -/
def fitsKind (a b g h : Term) : M Bool := do
  let g ← whnf g
  let h ← whnf h
  match g, h with
  | .Qua .Many, _ => return true
  | _, .Qua .None => return true
  | _, .Qua .Lone => return true
  | .Min x y, _ => both (compare .Fits (.Typ x) b) (compare .Fits (.Typ y) b)
  | _, .Min x y => do
    if ← compare .Fits a (.Typ x) then return true else compare .Fits a (.Typ y)
  | g, h => compare .Fits g h

/-- Two function types in `compare_inner`. -/
def compareAll (mode : Comparison) (aq : Quant) (ai : Nat) (ad ab : Term) (bq : Quant) (bi : Nat)
    (bd bb : Term) : M Bool :=
  if aq ≠ bq then return false
  else both (compare mode bd ad) do
    let x ← freshId
    compare mode (substitute ai (.Var "cmp" x) ab) (substitute bi (.Var "cmp" x) bb)

/-- Two datatypes in `compare_inner`. -/
def compareAdt (mode : Comparison) (an : String) (ax : List Term) (ar : List String) (bn : String)
    (bx : List Term) (br : List String) : M Bool :=
  if an ≠ bn ∨ (mode = .Equal ∧ ar.length ≠ br.length) ∨ ¬br.all ar.contains then return false
  else compareList compare ax bx

/-- The last match of `compare_inner`. -/
def compareHeads (mode : Comparison) (a b : Term) : M Bool :=
  match a, b with
  | .Var _ a, .Var _ b => return a = b
  | .Ref a, .Ref b | .Ref a, .GpuRef b | .GpuRef a, .Ref b | .GpuRef a, .GpuRef b => return a = b
  | .Typ g, .Typ h =>
    if mode = .Equal then compare mode g h else fitsKind whnf compare (.Typ g) (.Typ h) g h
  | .Qnt, .Qnt | .Rfl, .Rfl | .Efq, .Efq => return true
  | .Qua a, .Qua b => return a = b
  | .All aq _ ai ad ab, .All bq _ bi bd bb => compareAll compare mode aq ai ad ab bq bi bd bb
  | .Min a b, .Min c d | .App a b, .App c d => both (compare .Equal a c) (compare .Equal b d)
  | .Adt an ax ar, .Adt bn bx br => compareAdt compare mode an ax ar bn bx br
  | .Ctr an ax, .Ctr bn bx => if an = bn then compareList compare ax bx else return false
  | .Mat a ah am, .Mat b bh bm =>
    if a = b then both (compare .Equal ah bh) (compare .Equal am bm) else return false
  | .Eql a b t, .Eql c d u =>
    both (compare .Equal a c) (both (compare .Equal b d) (compare .Equal t u))
  | .Rwt a b c, .Rwt d e f =>
    both (compare .Equal a d) (both (compare .Equal b e) (compare .Equal c f))
  | _, _ => return false

/-- `matches!(value, Term::Lam { .. })`. -/
def isLam : Term → Bool
  | .Lam .. => true
  | _ => false

/-- `Engine::compare_inner`. -/
def compareInner (mode : Comparison) (left right : Term) : M Bool := do
  if ← ptrEq left right then return true
  else
    let a ← whnf left
    let b ← whnf right
    if ← ptrEq a b then return true
    else if isLam a || isLam b then
      let x ← freshId
      compare mode (apply a [.Var "eta" x]) (apply b [.Var "eta" x])
    else compareHeads whnf compare mode a b

end Compare

/-- `Engine::compare`. -/
def compare : Nat → Comparison → Term → Term → M Bool
  | 0, _, _, _ => exhausted
  | gas + 1, mode, left, right => charged (compareInner (whnf gas) (compare gas) mode left right)

end TeamyBend.Kernel
