/-
# Books

A book is a list of declarations, and `checkBook` reads it in order.  A pass over all terms comes
first: `prepareBook` bounds their size, finds the highest number in them and remembers the first
hole of each declaration.  Each declaration is then checked on a fresh budget and added to the
engine, and an open law may be completed once.  At the end no law may be open.

The engine holds its two maps as functions, which do not list their keys.  Where the source goes
over the values of a map, the model goes over the declarations it has read so far.  The diagnostic
reports and the program that the runtime keeps of a checked book are left out.
-/
import TeamyBend.Kernel.Check

namespace TeamyBend.Kernel

/-! ## 1. Books -/

/-- `enum Declaration`. -/
inductive Declaration where
  | Adt (d : AdtDecl)
  | Def (d : DefDecl)

/-- `struct Book`. -/
structure Book where
  declarations : List Declaration

/-- `struct CheckedBook`, without the program of the runtime. -/
structure CheckedBook where
  engine : Engine

namespace Declaration

/-- The name of a declaration. -/
def name : Declaration → String
  | Adt d => d.name
  | Def d => d.name

/-- The datatype that is declared. -/
def adt : Declaration → Option AdtDecl
  | Adt d => some d
  | Def _ => none

/-- The definition that is declared. -/
def definition : Declaration → Option DefDecl
  | Adt _ => none
  | Def d => some d

/-- The terms that `prepare_book` inspects, in its order. -/
def inputs : Declaration → List Term
  | Adt d => d.kind :: (d.parameters ++ d.constructors.flatMap (·.fields)).map (·.ty)
  | Def d => d.ty :: d.body.toList

/-- The numbers of its own binders. -/
def numbers : Declaration → List Nat
  | Adt d => (d.parameters ++ d.constructors.flatMap (·.fields)).map (·.id)
  | Def d => d.parameters.map (·.id) ++ (d.completionParameters.getD []).map (·.2)

end Declaration

/-- The datatypes of a list of declarations. -/
def datatypes (declarations : List Declaration) : List AdtDecl :=
  declarations.filterMap Declaration.adt

/-- The definitions of a list of declarations. -/
def definitions (declarations : List Declaration) : List DefDecl :=
  declarations.filterMap Declaration.definition

/-! ## 2. The pass over the input -/

/-- `struct InspectedInput`. -/
structure InspectedInput where
  highest : Nat
  hole : Option String

/-- What `inspect_input` pushes for a term, the last part it pushes first. -/
def Term.parts : Term → List Term
  | .All _ _ _ domain body => [body, domain]
  | .Lam _ _ body => [body]
  | .Typ g => [g]
  | .Min a b | .App a b | .Ann a b => [b, a]
  | .Adt _ args _ | .Ctr _ args => args.reverse
  | .Mat _ arm fallback => [fallback, arm]
  | .Eql left right ty => [ty, right, left]
  | .Rwt evidence motive body => [body, motive, evidence]
  | .Let bindings body => (bindings.map (·.value)).reverse ++ [body]
  | _ => []

/-- The highest number that stands at the root of a term. -/
def Term.number : Term → Nat
  | .Var _ id | .All _ _ id _ _ | .Lam _ id _ => id
  | .Let bindings _ => (bindings.map (·.id)).foldl max 0
  | _ => 0

/-- The hole at the root of a term. -/
def Term.hole : Term → Option String
  | .Hole name => some name
  | _ => none

/-- The loop of `inspect_input` with deferred holes, over its stack and its results so far. -/
def inspectLoop : Nat → List (Term × Nat) → InspectedInput → Except KernelError InspectedInput
  | _, [], found => .ok found
  | remaining, (value, depth) :: stack, found =>
    if 128 < depth then
      .error (.new "kernel input nesting limit exhausted; proof not accepted")
    else
      match remaining with
      | 0 => .error (.new "kernel input size limit exhausted; proof not accepted")
      | remaining + 1 =>
        inspectLoop remaining (value.parts.map (·, depth + 1) ++ stack)
          ⟨max found.highest value.number, found.hole.or value.hole⟩

/-- `inspect_for_check`. -/
def inspectForCheck (value : Term) : Except KernelError InspectedInput :=
  inspectLoop 2000000 [(value, 0)] ⟨0, none⟩

/-- The calls of `inspect` for one declaration: the highest number and the first hole so far. -/
def inspectInputs : List Term → InspectedInput → Except KernelError InspectedInput
  | [], found => .ok found
  | value :: values, found => do
    let input ← inspectForCheck value
    inspectInputs values ⟨max found.highest input.highest, found.hole.or input.hole⟩

/-- The loop of `prepare_book`: the highest number, and the hole of every declaration. -/
def prepareDeclarations :
    List Declaration → Nat → Except KernelError (Nat × List (Option String))
  | [], highest => .ok (highest, [])
  | d :: ds, highest => do
    let found ← inspectInputs d.inputs ⟨highest, none⟩
    let rest ← prepareDeclarations ds (d.numbers.foldl max found.highest)
    return (rest.1, found.hole :: rest.2)

theorem named_none (name : String) (adt : AdtDecl) (h : none = some adt) : adt.name = name := by
  cases h

/-- The engine before any declaration. -/
def Engine.empty (pointers : Pointers) (display : Term → String) (freshId : Nat) : Engine where
  defs _ := none
  adts _ := none
  named := named_none
  aliases _ := none
  foreignContracts _ := false
  numericContracts _ := false
  opaqueContracts _ := false
  freshId := freshId
  fuel := 2000000
  depth := 0
  pointers := pointers
  display := display

/-- `prepare_book`. -/
def prepareBook (pointers : Pointers) (display : Term → String) (book : Book) :
    Except KernelError (Engine × List (Option String)) := do
  let found ← prepareDeclarations book.declarations 0
  if found.1 = usizeMax then .error (.new "binder identifier space exhausted")
  else return (.empty pointers display (found.1 + 1), found.2)

/-- `reject_source_hole`. -/
def rejectSourceHole : Option String → M Unit
  | none => return ()
  | some name => fail s!"unfinished proof hole ?{name}"

/-! ## 3. Definitions -/

/-- `self.defs.insert`. -/
def Engine.insertDef (e : Engine) (d : DefDecl) : Engine :=
  { e with defs := fun name => if name = d.name then some d else e.defs name }

/-- `self.adts.insert`. -/
def Engine.insertAdt (e : Engine) (d : AdtDecl) : Engine :=
  { e with
    adts := fun name => if name = d.name then some d else e.adts name
    named := by
      intro name adt h
      split at h
      · cases h
        exact Eq.symm ‹_›
      · exact e.named name adt h }

/-- The comparison of a definition with what has its name. -/
def checkPrevious (gas : Nat) (definition : DefDecl) (foreignCompletion : Bool) :
    Option DefDecl → M Unit
  | none => return ()
  | some previous => do
    let e ← get
    if previous.body.isSome ∨ e.foreignContracts definition.name ∨
        e.numericContracts definition.name ∨ e.opaqueContracts definition.name ∨
        (definition.body.isNone ∧ !foreignCompletion) then
      fail "duplicate declaration"
    else if ← compare gas .Equal previous.ty definition.ty then return ()
    else fail "proof does not preserve its law's type"

/-- The loop of `complete_parameters`: the binders, and the quantities of the telescope. -/
def completeLoop (gas : Nat) (completed : Bool) :
    List (String × Nat) → List Nat → Term → M (List (Binder Term) × List Quant)
  | [], _, _ => return ([], [])
  | (name, id) :: names, ids, telescope => do
    if ids.contains id then fail "duplicate declared parameter identifier"
    else
      match ← whnf gas telescope with
      | .All quant _ oldId domain body =>
        let rest ← completeLoop gas completed names (id :: ids)
          (if completed then substitute oldId (.Var name id) body else body)
        return (⟨quant, name, id, domain⟩ :: rest.1, quant :: rest.2)
      | _ => fail "parameter list exceeds the function telescope"

/-- `Engine::complete_parameters`. -/
def completeParameters (gas : Nat) (definition : DefDecl) : M (DefDecl × List Quant) := do
  let completed := definition.completionParameters.isSome
  let names := definition.completionParameters.getD
    (definition.parameters.map fun p => (p.name, p.id))
  let found ← completeLoop gas completed names [] definition.ty
  if completed then
    return ({ definition with completionParameters := none, parameters := found.1 }, found.2)
  else return (definition, found.2)

/-- The equation of a definition before its parameters are known. -/
def definitionLhs (definition : DefDecl) (unsafeContext : Bool) : Lhs :=
  ⟨definition.name, .Ref definition.name, 0, [], unsafeContext⟩

/-- The check of a body, when there is one. -/
def checkBody (gas : Nat) (lhs : Lhs) (checked : DefDecl) (quants : List Quant) :
    Option Term → M Unit
  | none => return ()
  | some body => do
    let lhs := { lhs with remaining := checked.parameters.length, quants := quants }
    let _ ← check gas lhs body .Lone checked.ty .new
    return ()

/-- The second half of `validate_definition`, after the comparison with a law. -/
def declareDefinition (gas : Nat) (definition : DefDecl) (unsafeContext : Bool) : M Unit := do
  modify (·.insertDef { definition with body := none })
  let lhs := definitionLhs definition unsafeContext
  let _ ← check gas lhs definition.ty .None (kind .Lone) .new
  let completed ← completeParameters gas definition
  -- a recursive call sees the arity, and never a body that is not checked
  modify (·.insertDef { completed.1 with body := none })
  checkBody gas lhs completed.1 completed.2 completed.1.body
  modify (·.insertDef completed.1)

/-- `Engine::validate_definition`. -/
def validateDefinition (gas : Nat) (definition : DefDecl)
    (foreignCompletion unsafeContext : Bool) : M Unit := do
  let e ← get
  if (e.adts definition.name).isSome then fail "definition collides with a datatype"
  else
    let previous := e.defs definition.name
    if definition.completionParameters.isSome ∧
        (previous.isNone ∨ definition.body.isNone ∨ foreignCompletion) then
      fail "invalid ordinary law completion metadata"
    else
      checkPrevious gas definition foreignCompletion previous
      declareDefinition gas definition unsafeContext

/-- `Engine::validate_def`. -/
def validateDef (gas : Nat) (definition : DefDecl) : M Unit :=
  if definition.unsafe_ ∨ definition.foreign then
    fail "strict proof checking rejects unsafe and foreign definitions"
  else validateDefinition gas definition false false

/-! ## 4. Datatypes -/

/-- `Engine::constructor_family`, over the values of `self.adts`. -/
def constructorFamily (values : List AdtDecl) (name : String) : Option String :=
  (values.find? fun a => a.constructors.any (·.name = name)).map (·.name)

/-- The loop of `validate_adt` over its constructors' names. -/
def checkConstructors (values : List AdtDecl) (declaration : AdtDecl) :
    List ConstructorDecl → M Unit
  | [] => return ()
  | constructor :: constructors => do
    if (constructorFamily values constructor.name).isSome ∨
        declaration.constructors.countP (·.name = constructor.name) ≠ 1 then
      fail s!"duplicate constructor {constructor.name}"
    else checkConstructors values declaration constructors

/-- The loop of `validate_adt` over the parameters and the fields of one constructor. -/
def checkFields (gas : Nat) (declaration : AdtDecl) :
    Nat → List (Binder Term) → Context → M Unit
  | _, [], _ => return ()
  | i, binder :: binders, Γ => do
    let expected := if declaration.parameters.length ≤ i ∧ binder.quant = .Lone then
      declaration.kind else kind binder.quant
    let _ ← check gas .default binder.ty .None expected Γ
    if Γ.contains_key binder.id then fail "duplicate binder identifier"
    else checkFields gas declaration (i + 1) binders (Γ.insert binder)

/-- The loop of `validate_adt` over its constructors. -/
def checkTelescopes (gas : Nat) (declaration : AdtDecl) : List ConstructorDecl → M Unit
  | [] => return ()
  | constructor :: constructors => do
    checkFields gas declaration 0 (declaration.parameters ++ constructor.fields) .new
    checkTelescopes gas declaration constructors

/-- The second half of `validate_adt`, after the checks of names. -/
def declareAdt (gas : Nat) (declaration : AdtDecl) : M Unit := do
  modify (·.insertAdt declaration)
  let _ ← check gas .default (arrows declaration.parameters declaration.kind) .None (kind .Lone)
    .new
  match ← whnf gas declaration.kind with
  | .Typ _ => checkTelescopes gas declaration declaration.constructors
  | _ => fail "datatype declaration must end in Kind(g), Type, or Data"

/-- `Engine::validate_adt`, where `values` are those of `self.adts`. -/
def validateAdt (gas : Nat) (values : List AdtDecl) (declaration : AdtDecl) : M Unit := do
  let e ← get
  if (e.adts declaration.name).isSome ∨ (e.defs declaration.name).isSome then
    fail "duplicate datatype"
  else
    checkConstructors values declaration declaration.constructors
    declareAdt gas declaration

/-! ## 5. Whole books -/

/-- The check of one declaration, after the declarations `seen`. -/
def validate (gas : Nat) (seen : List Declaration) : Declaration → M Unit
  | .Adt d => validateAdt gas (datatypes seen) d
  | .Def d => validateDef gas d

/-- An error that names its declaration. -/
def inDefinition {α : Type} (name : String) (m : M α) : M α :=
  fun e => match m e with
    | .ok a e' => .ok a e'
    | .error err e' => .error (err.inDefinition name) e'

/-- The loop of `check_book_with_origins`. -/
def checkDeclarations (gas : Nat) :
    List Declaration → List (Declaration × Option String) → M Unit
  | _, [] => return ()
  | seen, (declaration, hole) :: rest => do
    modify fun e => { e with fuel := 2000000 }
    inDefinition declaration.name do
      validate gas seen declaration
      rejectSourceHole hole
    checkDeclarations gas (seen ++ [declaration]) rest

/-- The names of the definitions without a body, in the order of `self.defs`. -/
def openLaws (e : Engine) (declarations : List Declaration) : List String :=
  ((definitions declarations).map (·.name)).dedup.mergeSort.filter fun name =>
    (e.defs name).any (·.body.isNone)

/-- `check_book`. -/
def checkBook (gas : Nat) (pointers : Pointers) (display : Term → String) (book : Book) :
    Except KernelError CheckedBook := do
  let prepared ← prepareBook pointers display book
  let checked ← outcome (checkDeclarations gas [] (book.declarations.zip prepared.2)) prepared.1
  let laws := openLaws checked.2 book.declarations
  if laws.isEmpty then return ⟨checked.2⟩ else .error (.unfilledLaws laws)

end TeamyBend.Kernel
