/-
# The checker

The rules of `check.rs`: `infer` finds the type of a term, `check` compares a term with a type, and
both answer how much every variable was used.

A demand comes down and uses go up.  Below an erased position the demand is `None` and every use is
recorded as `None`; side by side uses are added, and the two sides of a match are joined.

The rules call each other through `Rules`; `rules` closes the knot on the bound, and each call
through it pays a step and a level of depth.  A rule that the source writes as one function with
several stages is one definition a stage here.  The reports that the source attaches to an error
(source places, rendered scopes, the site of a match) are left out, and so is `child_diagnostic`,
which only moves them: the message of an error is the model's error.
-/
import TeamyBend.Kernel.Descend
import TeamyBend.Kernel.Reduce

namespace TeamyBend.Kernel

/-! ## 1. Contexts -/

/-- `BTreeMap::insert`, by the number of the binder. -/
def insertBinder (b : Binder Term) : List (Binder Term) → List (Binder Term)
  | [] => [b]
  | c :: cs =>
    if b.id < c.id then b :: c :: cs
    else if b.id = c.id then b :: cs
    else c :: insertBinder b cs

/-- An inserted binder is the only new one. -/
theorem mem_insertBinder {b c : Binder Term} {cs : List (Binder Term)}
    (h : c ∈ insertBinder b cs) : c = b ∨ c ∈ cs := by
  induction cs with
  | nil => simpa [insertBinder] using h
  | cons d cs ih =>
    rw [insertBinder] at h
    split at h
    · simpa using h
    · split at h
      · rcases List.mem_cons.mp h with h | h
        · exact .inl h
        · exact .inr (List.mem_cons_of_mem _ h)
      · rcases List.mem_cons.mp h with h | h
        · exact .inr (h ▸ List.mem_cons_self ..)
        · exact (ih h).imp_right (List.mem_cons_of_mem _)

/-- Binders stay sorted by their identifiers. -/
theorem sorted_insertBinder {b : Binder Term} {cs : List (Binder Term)}
    (h : cs.Pairwise (·.id < ·.id)) : (insertBinder b cs).Pairwise (·.id < ·.id) := by
  induction cs with
  | nil => simp [insertBinder]
  | cons d cs ih =>
    obtain ⟨hd, hcs⟩ := List.pairwise_cons.mp h
    rw [insertBinder]
    split
    · rename_i hlt
      refine List.pairwise_cons.mpr ⟨fun c hc => ?_, h⟩
      rcases List.mem_cons.mp hc with rfl | hc
      · exact hlt
      · exact Nat.lt_trans hlt (hd c hc)
    · split
      · rename_i heq
        exact List.pairwise_cons.mpr ⟨fun c hc => heq ▸ hd c hc, hcs⟩
      · rename_i hlt hne
        refine List.pairwise_cons.mpr ⟨fun c hc => ?_, ih hcs⟩
        rcases mem_insertBinder hc with rfl | hc
        · omega
        · exact hd c hc

/-- `struct Context`: the binders in scope, in the order of their numbers. -/
structure Context where
  values : List (Binder Term)
  sorted : values.Pairwise (·.id < ·.id)

namespace Context

/-- `Context::new`. -/
def new : Context := ⟨[], .nil⟩

/-- `Context::insert`. -/
def insert (Γ : Context) (b : Binder Term) : Context :=
  ⟨insertBinder b Γ.values, sorted_insertBinder Γ.sorted⟩

/-- `Context::get`. -/
def get (Γ : Context) (id : Nat) : Option (Binder Term) := Γ.values.find? (·.id = id)

/-- `Context::contains_key`. -/
def contains_key (Γ : Context) (id : Nat) : Bool := Γ.values.any (·.id = id)

end Context

/-! ## 2. Uses -/

/-- `usage`. -/
def usage (id : Nat) (q : Quant) : Uses := fun x => if x = id then q else .None

/-- `add`. -/
def Uses.add (a b : Uses) : Uses := fun id => (a id).add (b id)

/-- `join`. -/
def Uses.join (a b : Uses) : Uses := fun id => (a id).max (b id)

/-- `uses.remove`. -/
def Uses.remove (u : Uses) (id : Nat) : Uses := fun x => if x = id then .None else u x

/-- `{:?}` on `Quant`. -/
def Quant.debug : Quant → String
  | None => "None"
  | Lone => "Lone"
  | Many => "Many"

/-- `Engine::check_usage`. -/
def checkUsage (b : Binder Term) (uses : Uses) : M Uses :=
  if (uses b.id).fits b.quant then return uses.remove b.id
  else
    let permitted := b.quant.debug
    let observed := (uses b.id).debug
    fail s!"binder {b.name} permits {permitted} use, observed {observed}"

/-! ## 3. Kinds and datatypes -/

/-- `kind`. -/
def kind (q : Quant) : Term := .Typ (.Qua q)

/-- `Lhs::domain_kind`. -/
def Lhs.domainKind (lhs : Lhs) (quant : Quant) : Term :=
  kind (if lhs.unsafe_ ∧ quant = .Many then .Lone else quant)

/-- A failure whose message shows a term. -/
def failShowing {α : Type} (before : String) (value : Term) : M α := do
  let e ← get
  fail (before ++ e.display value)

/-- The failure of `mismatch`. -/
def mismatch {α : Type} (expected observed : Term) : M α := do
  let e ← get
  fail ("type mismatch: expected " ++ e.display expected ++ "; observed " ++ e.display observed)

/-- `adt.constructors.retain(|c| !excluded.contains(&c.name))`. -/
def AdtDecl.retain (adt : AdtDecl) (excluded : List String) : AdtDecl :=
  { adt with constructors := adt.constructors.filter fun c => !excluded.contains c.name }

/-- `Engine::adt`. -/
def adtOf (value : Term) : M AdtDecl := do
  match value with
  | .Adt name args excluded =>
    match (← get).adts name with
    | none => fail s!"undefined datatype {name}"
    | some adt =>
      let parameters := adt.parameters.length
      if args.length ≠ parameters then fail s!"{name} needs {parameters} type parameters"
      else if excluded.any fun n => !adt.constructors.any (·.name = n) then
        fail "unknown excluded constructor"
      else return adt.retain excluded
  | value => failShowing "expected a datatype; observed " value

/-- `Engine::fields`. -/
def fieldsOf (adt : AdtDecl) (constructor : ConstructorDecl) (args : List Term) :
    List (Binder Term) :=
  constructor.fields.map fun field =>
    { field with
      ty := (adt.parameters.zip args).foldl (fun ty p => substitute p.1.id p.2 ty) field.ty }

/-! ## 4. The rules -/

/-- The two calls every rule makes. -/
structure Rules where
  infer : Lhs → Term → Quant → Context → List Term → M (Term × Uses)
  check : Lhs → Term → Quant → Term → Context → M Uses

/-- What a rule calls in `reduce.rs`, and the bound of its own loops. -/
structure Callees where
  gas : Nat
  whnf : Term → M Term
  compare : Comparison → Term → Term → M Bool

/-- The calls with a bound, on an engine that keeps no head memo. -/
instance : Coe Nat Callees := ⟨fun gas => ⟨gas, whnf gas, compare gas⟩⟩

instance (gas : Nat) : OfNat Callees gas := ⟨gas⟩

section Rules

variable (calls : Callees) (rules : Rules)

/-- `Engine::check_arguments`, with the uses so far. -/
def checkArguments (lhs : Lhs) (demand : Quant) (Γ : Context) :
    Term → Uses → List Term → M (Term × Uses)
  | telescope, uses, [] => return (telescope, uses)
  | telescope, uses, arg :: args => do
    match ← calls.whnf telescope with
    | .All quant _ id domain body =>
      let u ← rules.check lhs arg (quant.demand demand) domain Γ
      checkArguments lhs demand Γ (substitute id arg body) (uses.add u) args
    | _ => fail "too many arguments for telescope"

/-- `Term::App` in `infer_inner`, for a function that is no lambda. -/
def inferApp (lhs : Lhs) (f x : Term) (demand : Quant) (Γ : Context) (arguments : List Term) :
    M (Term × Uses) := do
  let function ← rules.infer lhs f demand Γ (x :: arguments)
  match ← calls.whnf function.1 with
  | .All quant _ id domain body =>
    let xu ← rules.check lhs x (quant.demand demand) domain Γ
    return (substitute id x body, function.2.add xu)
  | ft => failShowing "expected a function type; observed " ft

/-- `Engine::infer_inner`. -/
def inferInner (lhs : Lhs) (value : Term) (demand : Quant) (Γ : Context)
    (arguments : List Term) : M (Term × Uses) :=
  match value with
  | .Var name id =>
    match Γ.get id with
    | some b => return (b.ty, usage id demand)
    | none => failShowing "unbound variable " (.Var name id)
  | .Ref name | .GpuRef name => inferReference calls.gas lhs name demand arguments
  | .Typ g => do
    let _ ← rules.check lhs g .None .Qnt Γ
    return (kind .Lone, Uses.new)
  | .Qnt => return (kind .Lone, Uses.new)
  | .Qua _ => return (.Qnt, Uses.new)
  | .Min a b => do
    let au ← rules.check lhs a demand .Qnt Γ
    let bu ← rules.check lhs b demand .Qnt Γ
    return (.Qnt, au.add bu)
  | .All quant name id domain body => do
    let _ ← rules.check lhs domain .None (lhs.domainKind quant) Γ
    if Γ.contains_key id then fail "duplicate binder identifier"
    else
      let _ ← rules.check lhs body .None (kind .Lone) (Γ.insert ⟨quant, name, id, domain⟩)
      return (kind .Lone, Uses.new)
  | .App (.Lam _ id body) x => rules.infer lhs (substitute id x body) demand Γ arguments
  | .App f x => inferApp calls rules lhs f x demand Γ arguments
  | .Adt name args excluded => do
    let adt ← adtOf (.Adt name args excluded)
    let checked ← checkArguments calls rules lhs demand Γ (arrows adt.parameters adt.kind)
      Uses.new args
    if name ≠ adt.name then fail "datatype name mismatch" else return checked
  | .Eql left right ty => do
    let _ ← rules.check lhs ty .None (kind .Lone) Γ
    let _ ← rules.check lhs left .None ty Γ
    let _ ← rules.check lhs right .None ty Γ
    return (kind .Many, Uses.new)
  | .Ann x ty => do
    let _ ← rules.check lhs ty .None (kind .Lone) Γ
    let uses ← rules.check lhs x demand ty Γ
    return (ty, uses)
  | .Hole name => fail s!"unfinished proof hole ?{name}"
  | value => failShowing "term needs an expected type or annotation: " value

/-- `Term::Lam` in `check_inner`. -/
def checkLam (lhs : Lhs) (name : String) (id : Nat) (body : Term) (demand : Quant) (ty : Term)
    (Γ : Context) : M Uses := do
  match ← calls.whnf ty with
  | .All quant _ tid domain codomain =>
    let x ← freshId
    let binder : Binder Term := ⟨quant, name, x, domain⟩
    let lhs := if 0 < lhs.remaining then
        { lhs with
          equation := apply lhs.equation [.Var name x]
          remaining := lhs.remaining - 1 }
      else lhs
    let uses ← rules.check lhs (substitute id (.Var name x) body) demand
      (substitute tid (.Var name x) codomain) (Γ.insert binder)
    checkUsage binder uses
  | _ => mismatch ty (.Lam name id body)

/-- The loop of `check_let` over the bindings: the binders, the inner context and the uses. -/
def letBindings (lhs : Lhs) (demand : Quant) (Γ : Context) :
    List (LetBinding Term) → Context → Uses → M (List (Binder Term) × Context × Uses)
  | [], next, uses => return ([], next, uses)
  | b :: bindings, next, uses => do
    if next.contains_key b.id then fail "duplicate let binder identifier"
    else
      let value ← rules.infer lhs b.value (b.quant.demand demand) Γ []
      let _ ← rules.check lhs value.1 .None (lhs.domainKind b.quant) Γ
      let binder : Binder Term := ⟨b.quant, b.name, b.id, value.1⟩
      let rest ← letBindings lhs demand Γ bindings (next.insert binder) (uses.add value.2)
      return (binder :: rest.1, rest.2)

/-- The last loop of `check_let`. -/
def checkUsages : List (Binder Term) → Uses → M Uses
  | [], uses => return uses
  | b :: binders, uses => do
    let uses ← checkUsage b uses
    checkUsages binders uses

/-- The aliases of a `let`. -/
def insertAliases (bindings : List (LetBinding Term)) (aliases : Nat → Option Term) :
    Nat → Option Term :=
  bindings.foldl (fun aliases b id => if id = b.id then some b.value else aliases id) aliases

/-- The aliases after a `let`. -/
def removeAliases (bindings : List (LetBinding Term)) (aliases : Nat → Option Term) :
    Nat → Option Term :=
  bindings.foldl (fun aliases b id => if id = b.id then none else aliases id) aliases

theorem insertAliases_of_not_mem {bindings : List (LetBinding Term)} {id : Nat}
    (h : id ∉ bindings.map (·.id)) (aliases : Nat → Option Term) :
    insertAliases bindings aliases id = aliases id := by
  induction bindings generalizing aliases with
  | nil => rfl
  | cons b bindings ih =>
    simp only [List.map_cons, List.mem_cons, not_or] at h
    exact (ih h.2 _).trans (if_neg h.1)

/-- The aliases of the bindings replace what was there. -/
theorem insertAliases_of_mem {bindings : List (LetBinding Term)} {id : Nat}
    (h : id ∈ bindings.map (·.id)) (aliases aliases' : Nat → Option Term) :
    insertAliases bindings aliases id = insertAliases bindings aliases' id := by
  induction bindings generalizing aliases aliases' with
  | nil => simp at h
  | cons b bindings ih =>
    by_cases htail : id ∈ bindings.map (·.id)
    · exact ih htail _ _
    · have hid : id = b.id := by simpa [htail] using h
      exact ((insertAliases_of_not_mem htail _).trans (if_pos hid)).trans
        ((insertAliases_of_not_mem htail _).trans (if_pos hid)).symm

theorem removeAliases_of_not_mem {bindings : List (LetBinding Term)} {id : Nat}
    (h : id ∉ bindings.map (·.id)) (aliases : Nat → Option Term) :
    removeAliases bindings aliases id = aliases id := by
  induction bindings generalizing aliases with
  | nil => rfl
  | cons b bindings ih =>
    simp only [List.map_cons, List.mem_cons, not_or] at h
    exact (ih h.2 _).trans (if_neg h.1)

theorem removeAliases_of_mem {bindings : List (LetBinding Term)} {id : Nat}
    (h : id ∈ bindings.map (·.id)) (aliases : Nat → Option Term) :
    removeAliases bindings aliases id = none := by
  induction bindings generalizing aliases with
  | nil => simp at h
  | cons b bindings ih =>
    by_cases htail : id ∈ bindings.map (·.id)
    · exact ih htail _
    · have hid : id = b.id := by simpa [htail] using h
      exact (removeAliases_of_not_mem htail _).trans (if_pos hid)

/-- `Engine::check_let`. -/
def checkLet (lhs : Lhs) (bindings : List (LetBinding Term)) (body : Term) (demand : Quant)
    (ty : Term) (Γ : Context) : M Uses := do
  let checked ← letBindings rules lhs demand Γ bindings Γ Uses.new
  modify fun e => { e with aliases := insertAliases bindings e.aliases }
  let uses ← rules.check lhs body demand ty checked.2.1
  modify fun e => { e with aliases := removeAliases bindings e.aliases }
  let uses ← checkUsages checked.1 uses
  return checked.2.2.add uses

/-- `Term::Ctr` in `check_inner`, at a type in weak head normal form. -/
def checkCtr (lhs : Lhs) (name : String) (args : List Term) (demand : Quant) (t : Term)
    (Γ : Context) : M Uses := do
  let adt ← adtOf t
  match adt.constructors.find? (·.name = name) with
  | none => fail s!"{name} is not a remaining constructor of {adt.name}"
  | some constructor =>
    let needed := constructor.fields.length
    let given := args.length
    if needed ≠ given then fail s!"{name} needs {needed} fields; got {given}"
    else
      match t with
      | .Adt _ parameters _ =>
        let checked ← checkArguments calls rules lhs demand Γ
          (arrows (fieldsOf adt constructor parameters) t) Uses.new args
        return checked.2
      | _ => failShowing "expected a datatype; observed " t

/-- `Term::Rfl` in `check_inner`. -/
def checkRfl (ty : Term) : M Uses := do
  match ← calls.whnf ty with
  | .Eql left right _ =>
    if ← calls.compare .Equal left right then return Uses.new
    else
      let e ← get
      fail ("reflexivity requires equal endpoints: " ++ e.display left ++ " != "
        ++ e.display right)
  | _ => mismatch ty .Rfl

/-- `Term::Rwt` in `check_inner`. -/
def checkRwt (lhs : Lhs) (evidence motive body : Term) (demand : Quant) (ty : Term)
    (Γ : Context) : M Uses := do
  let inferred ← rules.infer lhs evidence demand Γ []
  match ← calls.whnf inferred.1 with
  | .Eql left right domain =>
    let x ← freshId
    let e ← freshId
    let motiveType := arrows
      [⟨.Lone, "_", x, domain⟩, ⟨.Lone, "equation", e, .Eql left (.Var "_" x) domain⟩] (kind .Lone)
    let _ ← rules.check lhs motive .None motiveType Γ
    let goal := apply motive [right, evidence]
    if ← calls.compare .Fits goal ty then
      let uses ← rules.check lhs body demand (apply motive [left, .Rfl]) Γ
      return inferred.2.add uses
    else mismatch ty goal
  | _ => fail "rewrite evidence must have equality type"

/-- `Engine::context_dead`. -/
def contextDead : List (Binder Term) → M Bool
  | [] => return false
  | b :: binders => do
    if b.quant = .None then contextDead binders
    else
      match ← calls.whnf b.ty with
      | .Adt name args excluded =>
        let adt ← adtOf (.Adt name args excluded)
        if adt.constructors.isEmpty then return true else contextDead binders
      | _ => contextDead binders

/-- `Term::Efq` in `check_match`. -/
def checkEfq (adt : AdtDecl) (Γ : Context) : M Uses := do
  if adt.constructors.isEmpty then return Uses.new
  else if ← contextDead calls Γ.values then return Uses.new
  else
    let names := ", ".intercalate (adt.constructors.map (·.name))
    fail s!"missing cases for {names}"

/-- The loop of `check_match` over the fields: binders with fresh names, and their variables. -/
def freshFields (quant : Quant) :
    List (Binder Term) → List (Nat × Term) → M (List (Binder Term) × List Term)
  | [], _ => return ([], [])
  | field :: fields, substitutions => do
    let x ← freshId
    let domain := substitutions.foldl (fun domain s => substitute s.1 s.2 domain) field.ty
    let rest ← freshFields quant fields (substitutions ++ [(field.id, .Var field.name x)])
    return (⟨field.quant.product quant, field.name, x, domain⟩ :: rest.1,
      .Var field.name x :: rest.2)

/-- The equation of an arm. -/
def Lhs.arm (lhs : Lhs) (fields : List (Binder Term)) (value : Term) : Lhs :=
  if 0 < lhs.remaining then
    { lhs with
      equation := lambdas fields (apply lhs.equation [value])
      remaining := lhs.remaining - 1 + fields.length }
  else lhs

/-- `Term::Mat` in `check_match`, for the domain `name<args>` without `excluded`. -/
def checkMat (lhs : Lhs) (constructor : String) (arm fallback : Term) (demand quant : Quant)
    (x : String) (id : Nat) (body : Term) (adt : AdtDecl) (args : List Term)
    (excluded : List String) (Γ : Context) : M Uses := do
  match adt.constructors.find? (·.name = constructor) with
  | none => fail s!"constructor {constructor} missing or already matched"
  | some ctr =>
    let fields ← freshFields quant (fieldsOf adt ctr args) []
    let value := Term.Ctr constructor fields.2
    let armGoal := arrows fields.1 (substitute id value body)
    let armUses ← rules.check (lhs.arm fields.1 value) arm demand armGoal Γ
    let residual := Term.All quant x id (.Adt adt.name args (excluded ++ [constructor])) body
    let fallbackUses ← rules.check lhs fallback demand residual Γ
    return armUses.join fallbackUses

/-- The two rules of `check_match`, for a domain that `adtOf` accepted. -/
def matchRule (lhs : Lhs) (demand quant : Quant) (x : String) (id : Nat) (body : Term)
    (adt : AdtDecl) (args : List Term) (excluded : List String) (Γ : Context) : Term → M Uses
  | .Mat constructor arm fallback =>
    checkMat rules lhs constructor arm fallback demand quant x id body adt args excluded Γ
  | _ => checkEfq calls adt Γ

/-- `Engine::check_match`. -/
def checkMatch (lhs : Lhs) (value : Term) (demand : Quant) (ty : Term) (Γ : Context) :
    M Uses := do
  match ← calls.whnf ty with
  | .All quant x id domain body =>
    if demand ≠ .None ∧ quant = .None then
      fail "an erased scrutinee cannot determine live evidence"
    else
      let dt ← calls.whnf domain
      let adt ← adtOf dt
      match dt with
      | .Adt _ args excluded =>
        matchRule calls rules lhs demand quant x id body adt args excluded Γ value
      | _ => failShowing "expected a datatype; observed " dt
  | _ => mismatch ty value

/-- `Engine::check_inner`. -/
def checkInner (lhs : Lhs) (value : Term) (demand : Quant) (ty : Term) (Γ : Context) : M Uses :=
  match value with
  | .Hole name => fail s!"unfinished proof hole ?{name}"
  | .Lam name id body => checkLam calls rules lhs name id body demand ty Γ
  | .Let bindings body => checkLet rules lhs bindings body demand ty Γ
  | .Ctr name args => do
    let t ← calls.whnf ty
    checkCtr calls rules lhs name args demand t Γ
  | .Mat constructor arm fallback =>
    checkMatch calls rules lhs (.Mat constructor arm fallback) demand ty Γ
  | .Efq => checkMatch calls rules lhs .Efq demand ty Γ
  | .Rfl => checkRfl calls ty
  | .Rwt evidence motive body => checkRwt calls rules lhs evidence motive body demand ty Γ
  | value => do
    step
    let inferred ← inferInner calls rules lhs value demand Γ []
    if ← calls.compare .Fits inferred.1 ty then return inferred.2 else mismatch ty inferred.1

end Rules

/-- `Engine::infer` and `Engine::check`. -/
def rules : Nat → Rules
  | 0 => ⟨fun _ _ _ _ _ => exhausted, fun _ _ _ _ _ => exhausted⟩
  | gas + 1 =>
    { infer := fun lhs value demand Γ arguments =>
        charged (inferInner gas (rules gas) lhs value demand Γ arguments)
      check := fun lhs value demand ty Γ =>
        charged (checkInner gas (rules gas) lhs value demand ty Γ) }

/-- `Engine::infer`. -/
def infer (gas : Nat) : Lhs → Term → Quant → Context → List Term → M (Term × Uses) :=
  (rules gas).infer

/-- `Engine::check`. -/
def check (gas : Nat) : Lhs → Term → Quant → Term → Context → M Uses := (rules gas).check

end TeamyBend.Kernel
