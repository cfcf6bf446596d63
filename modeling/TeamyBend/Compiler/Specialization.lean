/-
# Specializing expressions

`specialize_expression` copies an expression and replaces the identifiers of a map in its types.
A lambda whose erased parameter is mapped is dropped unless the telescope is preserved
(`specialize_segment_expression`), the type of a lambda is put together again from its binder and
its body, and the body of a `let` sees the erased bindings as further entries of the map.

The property is stated on the places of an expression where a type is replaced (`places`) and the
types found in the result (`types`), both in the order of the traversal.
-/
import TeamyBend.Compiler.Replacement
import Mathlib.Data.List.Forall2

namespace TeamyBend.Compiler

open Kernel

/-! ## 1. Expressions -/

/-- `struct Field`, over the type of expressions. -/
structure Field (E : Type) where
  binder : Binder Term
  value : E

/-- `enum ExpressionKind`, over the type of expressions. -/
inductive ExpressionKind (E : Type) where
  | Erased
  | Variable (id : Nat)
  | Definition (name : String)
  | Lambda (parameter : Binder Term) (body : E)
  | Apply (function argument : E) (quant : Quant)
  | Constructor (owner name : String) (fields : List (Field E))
  | Match (parameter : Binder Term) (owner constructor : String) (fields : List (Binder Term))
    (arm fallback : E)
  | Absurd (parameter : Binder Term) (owner : String)
  | Let (bindings : List (Field E)) (body : E)

/-- `struct Expression`. -/
inductive Expression where
  | mk (ty source : Term) (kind : ExpressionKind Expression) (gpuReference : Bool)

namespace Expression

def ty : Expression → Term
  | mk ty _ _ _ => ty

def source : Expression → Term
  | mk _ source _ _ => source

def kind : Expression → ExpressionKind Expression
  | mk _ _ kind _ => kind

end Expression

/-- `enum DefinitionBody`; only an ordinary body is an expression. -/
inductive DefinitionBody where
  | Ordinary (body : Expression)
  | Foreign
  | Numeric
  | OpaqueType

/-- `struct Definition`. -/
structure Definition where
  ty : Term
  parameters : List (Binder Term)
  body : DefinitionBody

/-- `Generator::instantiation` on the body of an ordinary definition. -/
def instantiationGo (substitutions : Substitutions) :
    Expression → List (Expression × Quant) → Substitutions
  | _, [] => substitutions
  | .mk _ _ (.Let _ body) _, arguments => instantiationGo substitutions body arguments
  | .mk _ _ (.Lambda parameter body) _, (argument, quant) :: arguments =>
    instantiationGo
      (if parameter.quant = .None ∧ quant = .None then
        substitutions.insert parameter.id argument.source
      else substitutions) body arguments
  | _, _ => substitutions

/-- `Generator::instantiation`. -/
def instantiation (definition : Definition) (arguments : List (Expression × Quant)) :
    Substitutions :=
  match definition.body with
  | .Ordinary body => instantiationGo .new body arguments
  | _ =>
    (definition.parameters.zip arguments).foldl (fun substitutions (parameter, argument, quant) =>
      if parameter.quant = .None ∧ quant = .None then
        substitutions.insert parameter.id argument.source
      else substitutions) .new

/-- `specialize_binder`. -/
def specializeBinder (binder : Binder Term) (substitutions : Substitutions) : Binder Term :=
  { binder with ty := replaceType binder.ty substitutions }

/-- The type of an expression, by `replace_type` or `specialize_type`. -/
def specializeTy (fuel : Nat) (preserveErased : Bool) (ty : Term) (substitutions : Substitutions) :
    Option Term :=
  if preserveErased then some (replaceType ty substitutions)
  else specializeType fuel ty substitutions

/-- A lambda that an instance drops. -/
def drops (preserveErased : Bool) (substitutions : Substitutions) (parameter : Binder Term) :
    Bool :=
  !preserveErased && decide (parameter.quant = .None) && substitutions.containsKey parameter.id

/-- `matches!(kind, ExpressionKind::Erased)`. -/
def Expression.isErased : Expression → Bool
  | .mk _ _ .Erased _ => true
  | _ => false

/-- The entries that the specialized bindings of a `let` add for its body. -/
def install (substitutions : Substitutions) (bindings : List (Field Expression)) : Substitutions :=
  bindings.foldl (fun inner field =>
    if decide (field.binder.quant = .None) || field.value.isErased then
      inner.insert field.binder.id field.value.source
    else inner) substitutions

mutual

/-- `specialize_expression_shape`. -/
def specializeExpressionShape (fuel : Nat) (preserveErased : Bool) :
    Expression → Substitutions → Option Expression
  | .mk ty source kind gpuReference, substitutions =>
    match kind with
    | .Lambda parameter body =>
      if drops preserveErased substitutions parameter then
        specializeExpressionShape fuel preserveErased body substitutions
      else do
        let _ ← specializeTy fuel preserveErased ty substitutions
        let parameter := specializeBinder parameter substitutions
        let body ← specializeExpressionShape fuel preserveErased body substitutions
        some (.mk (.All parameter.quant parameter.name parameter.id parameter.ty body.ty)
          (replaceType source substitutions) (.Lambda parameter body) gpuReference)
    | .Apply function argument quant => do
      let ty ← specializeTy fuel preserveErased ty substitutions
      let function ← specializeExpressionShape fuel preserveErased function substitutions
      let argument ← specializeExpressionShape fuel preserveErased argument substitutions
      some (.mk ty (replaceType source substitutions) (.Apply function argument quant) gpuReference)
    | .Constructor owner name fields => do
      let ty ← specializeTy fuel preserveErased ty substitutions
      let fields ← specializeFields fuel preserveErased fields substitutions
      some (.mk ty (replaceType source substitutions) (.Constructor owner name fields) gpuReference)
    | .Match parameter owner constructor fields arm fallback => do
      let ty ← specializeTy fuel preserveErased ty substitutions
      let arm ← specializeExpressionShape fuel preserveErased arm substitutions
      let fallback ← specializeExpressionShape fuel preserveErased fallback substitutions
      some (.mk ty (replaceType source substitutions)
        (.Match (specializeBinder parameter substitutions) owner constructor
          (fields.map (specializeBinder · substitutions)) arm fallback) gpuReference)
    | .Absurd parameter owner => do
      let ty ← specializeTy fuel preserveErased ty substitutions
      some (.mk ty (replaceType source substitutions)
        (.Absurd (specializeBinder parameter substitutions) owner) gpuReference)
    | .Let bindings body => do
      let _ ← specializeTy fuel preserveErased ty substitutions
      let bindings ← specializeFields fuel preserveErased bindings substitutions
      -- The right-hand sides are done with the map outside before the body gets its entries.
      let body ← specializeExpressionShape fuel preserveErased body (install substitutions bindings)
      some (.mk body.ty (replaceType source substitutions) (.Let bindings body) gpuReference)
    | .Erased => do
      let ty ← specializeTy fuel preserveErased ty substitutions
      some (.mk ty (replaceType source substitutions) .Erased gpuReference)
    | .Variable id => do
      let ty ← specializeTy fuel preserveErased ty substitutions
      some (.mk ty (replaceType source substitutions) (.Variable id) gpuReference)
    | .Definition name => do
      let ty ← specializeTy fuel preserveErased ty substitutions
      some (.mk ty (replaceType source substitutions) (.Definition name) gpuReference)

/-- The fields of a constructor or the bindings of a `let`. -/
def specializeFields (fuel : Nat) (preserveErased : Bool) :
    List (Field Expression) → Substitutions → Option (List (Field Expression))
  | [], _ => some []
  | ⟨binder, value⟩ :: fields, substitutions => do
    let value ← specializeExpressionShape fuel preserveErased value substitutions
    let fields ← specializeFields fuel preserveErased fields substitutions
    some (⟨specializeBinder binder substitutions, value⟩ :: fields)

end

/-- `specialize_expression` and, with the telescope preserved, `specialize_segment_expression`
return this expression. -/
def Specializes (preserveErased : Bool) (expression : Expression) (substitutions : Substitutions)
    (out : Expression) : Prop :=
  ∃ fuel, specializeExpressionShape fuel preserveErased expression substitutions = some out

/-! ## 2. Places and types -/

/-- What a type of an expression belongs to. -/
inductive Role where
  | binder
  | expression
  /-- A lambda or a `let`, whose type comes from its parts. -/
  | rebuilt
  deriving Repr, DecidableEq

/-- A place where a type is replaced: the map in force there and the binders of the expression
around it that are not mapped. -/
structure Place where
  role : Role
  bound : List Nat
  map : Substitutions
  ty : Term

/-- Below further binders.  A mapped identifier stands for its value, whatever binds it. -/
def enter (substitutions : Substitutions) (ids bound : List Nat) : List Nat :=
  (ids ++ bound).filter fun id => !substitutions.containsKey id

/-- What is left of an expression when its mapped erased lambdas are dropped. -/
def kept (preserveErased : Bool) (substitutions : Substitutions) : Expression → Expression
  | .mk ty source (.Lambda parameter body) gpuReference =>
    if drops preserveErased substitutions parameter then kept preserveErased substitutions body
    else .mk ty source (.Lambda parameter body) gpuReference
  | e => e

/-- A binding whose source becomes an entry of the map. -/
def installs (preserveErased : Bool) (substitutions : Substitutions) (field : Field Expression) :
    Bool :=
  decide (field.binder.quant = .None) || (kept preserveErased substitutions field.value).isErased

/-- The map in force in the body of a `let`. -/
def inner (preserveErased : Bool) (substitutions : Substitutions)
    (bindings : List (Field Expression)) : Substitutions :=
  bindings.foldl (fun inner field =>
    if installs preserveErased substitutions field then
      inner.insert field.binder.id
        (replaceType (kept preserveErased substitutions field.value).source substitutions)
    else inner) substitutions

/-- The fields of a match, each below those before it. -/
def telescopePlaces (substitutions : Substitutions) : List Nat → List (Binder Term) → List Place
  | _, [] => []
  | bound, field :: fields =>
    ⟨.binder, bound, substitutions, field.ty⟩ ::
      telescopePlaces substitutions (enter substitutions [field.id] bound) fields

/-- The sources that become entries. -/
def aliasPlaces (preserveErased : Bool) (bound : List Nat) (substitutions : Substitutions)
    (bindings : List (Field Expression)) : List Place :=
  (bindings.filter (installs preserveErased substitutions)).map fun field =>
    ⟨.binder, bound, substitutions, (kept preserveErased substitutions field.value).source⟩

mutual

/-- The places of an expression in the order of the traversal. -/
def places (preserveErased : Bool) : List Nat → Substitutions → Expression → List Place
  | bound, substitutions, .mk ty _ kind _ =>
    match kind with
    | .Lambda parameter body =>
      if drops preserveErased substitutions parameter then
        places preserveErased bound substitutions body
      else
        ⟨.rebuilt, bound, substitutions, ty⟩ :: ⟨.binder, bound, substitutions, parameter.ty⟩ ::
          places preserveErased (enter substitutions [parameter.id] bound) substitutions body
    | .Apply function argument _ =>
      ⟨.expression, bound, substitutions, ty⟩ ::
        (places preserveErased bound substitutions function ++
          places preserveErased bound substitutions argument)
    | .Constructor _ _ fields =>
      ⟨.expression, bound, substitutions, ty⟩ ::
        fieldPlaces preserveErased bound substitutions fields
    | .Match parameter _ _ fields arm fallback =>
      ⟨.expression, bound, substitutions, ty⟩ :: ⟨.binder, bound, substitutions, parameter.ty⟩ ::
        (telescopePlaces substitutions bound fields ++
          (places preserveErased bound substitutions arm ++
            places preserveErased bound substitutions fallback))
    | .Absurd parameter _ =>
      [⟨.expression, bound, substitutions, ty⟩, ⟨.binder, bound, substitutions, parameter.ty⟩]
    | .Let bindings body =>
      ⟨.rebuilt, bound, substitutions, ty⟩ ::
        (fieldPlaces preserveErased bound substitutions bindings ++
          (aliasPlaces preserveErased bound substitutions bindings ++
            places preserveErased
              (enter (inner preserveErased substitutions bindings)
                (bindings.map (·.binder.id)) bound)
              (inner preserveErased substitutions bindings) body))
    | .Erased | .Variable _ | .Definition _ => [⟨.expression, bound, substitutions, ty⟩]

/-- The places of fields and bindings. -/
def fieldPlaces (preserveErased : Bool) :
    List Nat → Substitutions → List (Field Expression) → List Place
  | _, _, [] => []
  | bound, substitutions, ⟨binder, value⟩ :: fields =>
    ⟨.binder, bound, substitutions, binder.ty⟩ ::
      (places preserveErased bound substitutions value ++
        fieldPlaces preserveErased bound substitutions fields)

end

/-- The sources that became entries. -/
def aliasSources (bindings : List (Field Expression)) : List Term :=
  (bindings.filter fun field => decide (field.binder.quant = .None) || field.value.isErased).map
    (·.value.source)

mutual

/-- The types of a specialized expression in the same order. -/
def types : Expression → List Term
  | .mk ty _ kind _ =>
    match kind with
    | .Lambda parameter body => ty :: parameter.ty :: types body
    | .Apply function argument _ => ty :: (types function ++ types argument)
    | .Constructor _ _ fields => ty :: fieldTypes fields
    | .Match parameter _ _ fields arm fallback =>
      ty :: parameter.ty :: (fields.map (·.ty) ++ (types arm ++ types fallback))
    | .Absurd parameter _ => [ty, parameter.ty]
    | .Let bindings body =>
      ty :: (fieldTypes bindings ++ (aliasSources bindings ++ types body))
    | .Erased | .Variable _ | .Definition _ => [ty]

/-- The types of fields and bindings. -/
def fieldTypes : List (Field Expression) → List Term
  | [] => []
  | ⟨binder, value⟩ :: fields => binder.ty :: (types value ++ fieldTypes fields)

end

mutual

/-- A lambda has the type of its parts, and a `let` that of its body. -/
def Rebuilt : Expression → Prop
  | .mk ty _ kind _ =>
    match kind with
    | .Lambda parameter body =>
      ty = .All parameter.quant parameter.name parameter.id parameter.ty body.ty ∧ Rebuilt body
    | .Apply function argument _ => Rebuilt function ∧ Rebuilt argument
    | .Constructor _ _ fields => RebuiltFields fields
    | .Match _ _ _ _ arm fallback => Rebuilt arm ∧ Rebuilt fallback
    | .Let bindings body => ty = body.ty ∧ RebuiltFields bindings ∧ Rebuilt body
    | .Absurd _ _ | .Erased | .Variable _ | .Definition _ => True

/-- `Rebuilt` for fields and bindings. -/
def RebuiltFields : List (Field Expression) → Prop
  | [] => True
  | ⟨_, value⟩ :: fields => Rebuilt value ∧ RebuiltFields fields

end

/-- What becomes of the type of an expression with its own mapped binders opened. -/
def opened (preserveErased : Bool) (place : Place) : List (Nat × Term) × Term :=
  if preserveErased then ([], place.ty) else telescope place.map [] place.ty

/-- The entries that the source applies to a type, and the type it applies them to. -/
def applied (preserveErased : Bool) (place : Place) : List (Nat × Term) × Term :=
  match place.role with
  | .binder => (place.map.entries, place.ty)
  | _ => ((opened preserveErased place).1 ++ place.map.entries, (opened preserveErased place).2)

/-- **The type has every mapped identifier replaced at once**, without capture. -/
def AtPlace (preserveErased : Bool) (place : Place) (ty : Term) : Prop :=
  place.role ≠ .rebuilt →
    strip (Scope.free.pushAll place.bound) ty =
      strip (Scope.atOnce place.bound place.map.entries) (applied preserveErased place).2

/-- **The property**: the types of the result are those of the expression with all identifiers of
the map in force replaced at once. -/
structure AtOnce (preserveErased : Bool) (expression : Expression) (substitutions : Substitutions)
    (out : Expression) : Prop where
  types : List.Forall₂ (AtPlace preserveErased) (places preserveErased [] substitutions expression)
    (types out)
  rebuilt : Rebuilt out

/-- No mapped binder comes up that the type itself does not have in front. -/
def Clear (preserveErased : Bool) (place : Place) : Prop :=
  place.role = .binder ∨ preserveErased = true ∨
    opens place.map (chase (opened preserveErased place).1 (opened preserveErased place).2) = false

/-- **The condition at a place.** -/
def Settled (preserveErased : Bool) (place : Place) : Prop :=
  Clear preserveErased place ∧ (place.role ≠ .rebuilt →
    Chased place.bound (applied preserveErased place).1 (applied preserveErased place).2)

instance (preserveErased : Bool) (place : Place) : Decidable (Clear preserveErased place) :=
  inferInstanceAs (Decidable (_ ∨ _ ∨ _))

instance (preserveErased : Bool) (place : Place) : Decidable (Settled preserveErased place) :=
  inferInstanceAs (Decidable (_ ∧ (_ → _)))

namespace Expression

/-- **Induction over expressions**, with the hypotheses for lists as statements about their
members. -/
theorem induct {motive : Expression → Prop}
    (Erased : ∀ ty source g, motive (mk ty source .Erased g))
    (Variable : ∀ ty source id g, motive (mk ty source (.Variable id) g))
    (Definition : ∀ ty source name g, motive (mk ty source (.Definition name) g))
    (Lambda : ∀ ty source parameter body g, motive body →
      motive (mk ty source (.Lambda parameter body) g))
    (Apply : ∀ ty source function argument quant g, motive function → motive argument →
      motive (mk ty source (.Apply function argument quant) g))
    (Constructor : ∀ ty source owner name fields g, (∀ f ∈ fields, motive f.value) →
      motive (mk ty source (.Constructor owner name fields) g))
    (Match : ∀ ty source parameter owner constructor fields arm fallback g, motive arm →
      motive fallback →
      motive (mk ty source (.Match parameter owner constructor fields arm fallback) g))
    (Absurd : ∀ ty source parameter owner g, motive (mk ty source (.Absurd parameter owner) g))
    (Let : ∀ ty source bindings body g, (∀ f ∈ bindings, motive f.value) → motive body →
      motive (mk ty source (.Let bindings body) g)) (e : Expression) : motive e :=
  @Expression.rec motive (fun kind => ∀ ty source g, motive (mk ty source kind g))
    (fun fields => ∀ f ∈ fields, motive f.value) (fun f => motive f.value)
    (fun _ _ _ g h => h _ _ g)
    (fun _ _ g => Erased _ _ g) (fun _ _ _ g => Variable _ _ _ g)
    (fun _ _ _ g => Definition _ _ _ g) (fun _ _ h _ _ g => Lambda _ _ _ _ g h)
    (fun _ _ _ hf ha _ _ g => Apply _ _ _ _ _ g hf ha)
    (fun _ _ _ h _ _ g => Constructor _ _ _ _ _ g h)
    (fun _ _ _ _ _ _ ha hf _ _ g => Match _ _ _ _ _ _ _ _ g ha hf)
    (fun _ _ _ _ g => Absurd _ _ _ _ g) (fun _ _ hs h _ _ g => Let _ _ _ _ g hs h)
    (by simp) (fun _ _ h hs => by simpa using ⟨h, hs⟩) (fun _ _ h => h) e

end Expression

/-! ## 3. What the traversal does at every place -/

/-- What the source computes at a place. -/
def Produced (fuel : Nat) (preserveErased : Bool) (place : Place) (out : Term) : Prop :=
  match place.role with
  | .binder => out = replaceType place.ty place.map
  | .expression => specializeTy fuel preserveErased place.ty place.map = some out
  | .rebuilt => ∃ ty, specializeTy fuel preserveErased place.ty place.map = some ty

section Traversal

variable {fuel : Nat} {preserveErased : Bool} {substitutions : Substitutions}

theorem specializeFields_some {fields out : List (Field Expression)}
    (h : specializeFields fuel preserveErased fields substitutions = some out) :
    List.Forall₂ (fun field result =>
      result.binder = specializeBinder field.binder substitutions ∧
        specializeExpressionShape fuel preserveErased field.value substitutions =
          some result.value) fields out := by
  induction fields generalizing out with
  | nil =>
    cases h
    exact .nil
  | cons field fields ih =>
    obtain ⟨binder, value⟩ := field
    simp only [specializeFields, Option.bind_eq_bind, Option.bind_eq_some_iff] at h
    obtain ⟨result, hvalue, rest, hrest, hout⟩ := h
    cases hout
    exact .cons ⟨rfl, hvalue⟩ (ih hrest)

/-- The head of a specialized expression. -/
theorem specialized_kept {e out : Expression}
    (h : specializeExpressionShape fuel preserveErased e substitutions = some out) :
    out.isErased = (kept preserveErased substitutions e).isErased ∧
      out.source = replaceType (kept preserveErased substitutions e).source substitutions := by
  induction e using Expression.induct generalizing out with
  | Lambda ty source parameter body g ih =>
    rw [specializeExpressionShape] at h
    rw [kept]
    split at h
    · rename_i hdrops
      rw [if_pos hdrops]
      exact ih h
    · rename_i hdrops
      rw [if_neg hdrops]
      simp only [Option.bind_eq_bind, Option.bind_eq_some_iff] at h
      obtain ⟨_, -, result, -, hout⟩ := h
      cases hout
      exact ⟨rfl, rfl⟩
  | Erased | Variable | Definition | Absurd =>
    simp only [specializeExpressionShape, Option.bind_eq_bind, Option.bind_eq_some_iff] at h
    obtain ⟨_, -, hout⟩ := h
    cases hout
    exact ⟨rfl, rfl⟩
  | Constructor =>
    simp only [specializeExpressionShape, Option.bind_eq_bind, Option.bind_eq_some_iff] at h
    obtain ⟨_, -, _, -, hout⟩ := h
    cases hout
    exact ⟨rfl, rfl⟩
  | Apply | Match | Let =>
    simp only [specializeExpressionShape, Option.bind_eq_bind, Option.bind_eq_some_iff] at h
    obtain ⟨_, -, _, -, _, -, hout⟩ := h
    cases hout
    exact ⟨rfl, rfl⟩

/-- The map of a `let` body, from the bindings before and after. -/
theorem install_specialized {fields out : List (Field Expression)}
    (h : specializeFields fuel preserveErased fields substitutions = some out) :
    install substitutions out = inner preserveErased substitutions fields := by
  have hgo : ∀ {fields out : List (Field Expression)}, List.Forall₂ (fun field result =>
      result.binder = specializeBinder field.binder substitutions ∧
        specializeExpressionShape fuel preserveErased field.value substitutions =
          some result.value) fields out → ∀ map : Substitutions,
      out.foldl (fun inner field =>
        if decide (field.binder.quant = .None) || field.value.isErased then
          inner.insert field.binder.id field.value.source
        else inner) map =
      fields.foldl (fun inner field =>
        if installs preserveErased substitutions field then
          inner.insert field.binder.id
            (replaceType (kept preserveErased substitutions field.value).source substitutions)
        else inner) map := by
    intro fields out hfields
    induction hfields with
    | nil => exact fun _ => rfl
    | cons hfield _ ih =>
      obtain ⟨hbinder, hvalue⟩ := hfield
      obtain ⟨herased, hsource⟩ := specialized_kept hvalue
      intro map
      rw [List.foldl_cons, List.foldl_cons, ih, hbinder, herased, hsource]
      rfl
  exact hgo (specializeFields_some h) substitutions

theorem aliases_produced (bound : List Nat) {fields out : List (Field Expression)}
    (h : specializeFields fuel preserveErased fields substitutions = some out) :
    List.Forall₂ (Produced fuel preserveErased)
      (aliasPlaces preserveErased bound substitutions fields) (aliasSources out) := by
  have hfields := specializeFields_some h
  clear h
  induction hfields with
  | nil => exact .nil
  | @cons field result _ _ hfield _ ih =>
    obtain ⟨hbinder, hvalue⟩ := hfield
    obtain ⟨herased, hsource⟩ := specialized_kept hvalue
    have hsame : (decide (result.binder.quant = .None) || result.value.isErased) =
        installs preserveErased substitutions field := by
      rw [hbinder, herased, installs]
      rfl
    cases hinstalls : installs preserveErased substitutions field with
    | false =>
      rw [hinstalls] at hsame
      simpa [aliasPlaces, aliasSources, hinstalls, hsame] using ih
    | true =>
      rw [hinstalls] at hsame
      simpa [aliasPlaces, aliasSources, hinstalls, hsame, Produced, hsource] using ih

theorem fields_produced {bound : List Nat} {fields out : List (Field Expression)}
    (hvalues : ∀ field ∈ fields, ∀ result,
      specializeExpressionShape fuel preserveErased field.value substitutions = some result →
      List.Forall₂ (Produced fuel preserveErased)
        (places preserveErased bound substitutions field.value) (types result) ∧ Rebuilt result)
    (h : specializeFields fuel preserveErased fields substitutions = some out) :
    List.Forall₂ (Produced fuel preserveErased)
      (fieldPlaces preserveErased bound substitutions fields) (fieldTypes out) ∧
      RebuiltFields out := by
  have hfields := specializeFields_some h
  clear h
  induction hfields with
  | nil => exact ⟨.nil, trivial⟩
  | @cons field result fields _ hfield _ ih =>
    obtain ⟨hbinder, hvalue⟩ := hfield
    obtain ⟨htypes, hrebuilt⟩ := hvalues field (List.mem_cons_self ..) _ hvalue
    obtain ⟨hrest, hrestRebuilt⟩ := ih fun f hf => hvalues f (List.mem_cons_of_mem _ hf)
    refine ⟨?_, hrebuilt, hrestRebuilt⟩
    rw [fieldPlaces, fieldTypes]
    refine .cons ?_ (List.rel_append htypes hrest)
    rw [hbinder]
    rfl

theorem telescope_produced (bound : List Nat) (fields : List (Binder Term)) :
    List.Forall₂ (Produced fuel preserveErased) (telescopePlaces substitutions bound fields)
      ((fields.map (specializeBinder · substitutions)).map (·.ty)) := by
  induction fields generalizing bound with
  | nil => exact .nil
  | cons field fields ih => exact .cons rfl (ih _)

/-- **Every type of the result is the one the source computes at its place.** -/
theorem specialized_produced {e out : Expression} (bound : List Nat)
    (h : specializeExpressionShape fuel preserveErased e substitutions = some out) :
    List.Forall₂ (Produced fuel preserveErased) (places preserveErased bound substitutions e)
      (types out) ∧ Rebuilt out := by
  induction e using Expression.induct generalizing substitutions bound out with
  | Lambda ty source parameter body g ih =>
    rw [specializeExpressionShape] at h
    rw [places]
    split at h
    · rename_i hdrops
      rw [if_pos hdrops]
      exact ih _ h
    · rename_i hdrops
      rw [if_neg hdrops]
      simp only [Option.bind_eq_bind, Option.bind_eq_some_iff] at h
      obtain ⟨old, hty, result, hbody, hout⟩ := h
      cases hout
      obtain ⟨htypes, hrebuilt⟩ := ih _ hbody
      exact ⟨.cons ⟨old, hty⟩ (.cons rfl htypes), rfl, hrebuilt⟩
  | Erased | Variable | Definition =>
    simp only [specializeExpressionShape, Option.bind_eq_bind, Option.bind_eq_some_iff] at h
    obtain ⟨ty, hty, hout⟩ := h
    cases hout
    exact ⟨.cons hty .nil, trivial⟩
  | Absurd =>
    simp only [specializeExpressionShape, Option.bind_eq_bind, Option.bind_eq_some_iff] at h
    obtain ⟨ty, hty, hout⟩ := h
    cases hout
    exact ⟨.cons hty (.cons rfl .nil), trivial⟩
  | Constructor ty source owner name fields g ih =>
    simp only [specializeExpressionShape, Option.bind_eq_bind, Option.bind_eq_some_iff] at h
    obtain ⟨ty, hty, results, hfields, hout⟩ := h
    cases hout
    obtain ⟨htypes, hrebuilt⟩ := fields_produced (fun f hf _ h => ih f hf _ h) hfields
    exact ⟨.cons hty htypes, hrebuilt⟩
  | Apply ty source function argument quant g ihf iha =>
    simp only [specializeExpressionShape, Option.bind_eq_bind, Option.bind_eq_some_iff] at h
    obtain ⟨ty, hty, f, hf, a, ha, hout⟩ := h
    cases hout
    obtain ⟨hftypes, hfrebuilt⟩ := ihf _ hf
    obtain ⟨hatypes, harebuilt⟩ := iha _ ha
    exact ⟨.cons hty (List.rel_append hftypes hatypes), hfrebuilt, harebuilt⟩
  | Match ty source parameter owner constructor fields arm fallback g iha ihf =>
    simp only [specializeExpressionShape, Option.bind_eq_bind, Option.bind_eq_some_iff] at h
    obtain ⟨ty, hty, a, ha, f, hf, hout⟩ := h
    cases hout
    obtain ⟨hatypes, harebuilt⟩ := iha _ ha
    obtain ⟨hftypes, hfrebuilt⟩ := ihf _ hf
    exact ⟨.cons hty (.cons rfl (List.rel_append (telescope_produced bound fields)
      (List.rel_append hatypes hftypes))), harebuilt, hfrebuilt⟩
  | Let ty source bindings body g ihs ihb =>
    simp only [specializeExpressionShape, Option.bind_eq_bind, Option.bind_eq_some_iff] at h
    obtain ⟨old, hty, results, hbindings, b, hb, hout⟩ := h
    cases hout
    rw [install_specialized hbindings] at hb
    obtain ⟨htypes, hrebuilt⟩ := fields_produced (fun f hf _ h => ihs f hf _ h) hbindings
    obtain ⟨hbtypes, hbrebuilt⟩ := ihb _ hb
    exact ⟨.cons ⟨old, hty⟩ (List.rel_append htypes (List.rel_append
      (aliases_produced bound hbindings) hbtypes)), rfl, hrebuilt, hbrebuilt⟩

/-- The types that the traversal asks for at its own places. -/
def Answered (fuel : Nat) (preserveErased : Bool) (place : Place) : Prop :=
  place.role ≠ .binder → ∃ ty, specializeTy fuel preserveErased place.ty place.map = some ty

theorem fields_answered {bound : List Nat} {fields : List (Field Expression)}
    (hvalues : ∀ field ∈ fields, (∀ place ∈ places preserveErased bound substitutions field.value,
      Answered fuel preserveErased place) →
      ∃ out, specializeExpressionShape fuel preserveErased field.value substitutions = some out)
    (h : ∀ place ∈ fieldPlaces preserveErased bound substitutions fields,
      Answered fuel preserveErased place) :
    ∃ out, specializeFields fuel preserveErased fields substitutions = some out := by
  induction fields with
  | nil => exact ⟨[], rfl⟩
  | cons field fields ih =>
    obtain ⟨binder, value⟩ := field
    simp only [fieldPlaces, List.mem_cons, List.mem_append, or_imp, forall_and] at h
    obtain ⟨-, hvalue, hrest⟩ := h
    obtain ⟨result, hresult⟩ := hvalues _ (List.mem_cons_self ..) hvalue
    obtain ⟨results, hresults⟩ := ih (fun f hf => hvalues f (List.mem_cons_of_mem _ hf)) hrest
    rw [specializeFields, hresult, hresults]
    exact ⟨_, rfl⟩

/-- **The traversal returns** when its types do. -/
theorem specialized_answered {e : Expression} {bound : List Nat}
    (h : ∀ place ∈ places preserveErased bound substitutions e,
      Answered fuel preserveErased place) :
    ∃ out, specializeExpressionShape fuel preserveErased e substitutions = some out := by
  induction e using Expression.induct generalizing substitutions bound with
  | Lambda ty source parameter body g ih =>
    rw [places] at h
    rw [specializeExpressionShape]
    split at h
    · rename_i hdrops
      rw [if_pos hdrops]
      exact ih h
    · rename_i hdrops
      rw [if_neg hdrops]
      simp only [List.mem_cons, forall_eq_or_imp] at h
      obtain ⟨hown, -, hbody⟩ := h
      obtain ⟨old, hold⟩ := hown (by simp)
      obtain ⟨result, hresult⟩ := ih hbody
      rw [hold, hresult]
      exact ⟨_, rfl⟩
  | Erased | Variable | Definition =>
    obtain ⟨ty, hty⟩ := h _ (List.mem_singleton_self _) (by simp)
    rw [specializeExpressionShape, hty]
    exact ⟨_, rfl⟩
  | Absurd =>
    obtain ⟨ty, hty⟩ := h _ (List.mem_cons_self ..) (by simp)
    rw [specializeExpressionShape, hty]
    exact ⟨_, rfl⟩
  | Constructor ty source owner name fields g ih =>
    simp only [places, List.mem_cons, forall_eq_or_imp] at h
    obtain ⟨ty, hty⟩ := h.1 (by simp)
    obtain ⟨results, hresults⟩ := fields_answered (fun f hf => ih f hf) h.2
    rw [specializeExpressionShape, hty, hresults]
    exact ⟨_, rfl⟩
  | Apply ty source function argument quant g ihf iha =>
    simp only [places, List.mem_cons, List.mem_append, or_imp, forall_and, forall_eq] at h
    obtain ⟨ty, hty⟩ := h.1 (by simp)
    obtain ⟨f, hf⟩ := ihf h.2.1
    obtain ⟨a, ha⟩ := iha h.2.2
    rw [specializeExpressionShape, hty, hf, ha]
    exact ⟨_, rfl⟩
  | Match ty source parameter owner constructor fields arm fallback g iha ihf =>
    simp only [places, List.mem_cons, List.mem_append, or_imp, forall_and, forall_eq] at h
    obtain ⟨hown, -, -, harm, hfallback⟩ := h
    obtain ⟨ty, hty⟩ := hown (by simp)
    obtain ⟨a, ha⟩ := iha harm
    obtain ⟨f, hf⟩ := ihf hfallback
    rw [specializeExpressionShape, hty, ha, hf]
    exact ⟨_, rfl⟩
  | Let ty source bindings body g ihs ihb =>
    simp only [places, List.mem_cons, List.mem_append, or_imp, forall_and, forall_eq] at h
    obtain ⟨hown, hbindings, -, hbody⟩ := h
    obtain ⟨old, hold⟩ := hown (by simp)
    obtain ⟨results, hresults⟩ := fields_answered (fun f hf => ihs f hf) hbindings
    obtain ⟨b, hb⟩ := ihb hbody
    rw [← install_specialized hresults] at hb
    rw [specializeExpressionShape, hold, hresults]
    exact ⟨_, congrArg (Option.bind · _) hb⟩

end Traversal

/-! ## 4. The condition -/

section Condition

variable {preserveErased : Bool} {place : Place}

/-- At a clear place the source applies the entries one after the other. -/
theorem Clear.specializeTy (h : Clear preserveErased place) (hrole : place.role ≠ .binder) :
    ∃ fuel, specializeTy fuel preserveErased place.ty place.map =
      some (replaceAll (applied preserveErased place).1 (applied preserveErased place).2) := by
  have happlied : applied preserveErased place =
      ((opened preserveErased place).1 ++ place.map.entries, (opened preserveErased place).2) := by
    unfold applied
    split
    · exact absurd ‹_› hrole
    · rfl
  rw [happlied]
  cases preserveErased with
  | true => exact ⟨0, rfl⟩
  | false =>
    have hopens : opens place.map (chase (telescope place.map [] place.ty).1
        (telescope place.map [] place.ty).2) = false := by
      rcases h with h | h | h
      · exact absurd h hrole
      · cases h
      · exact h
    exact specializeType_eq hopens

theorem specializeTy_le {fuel fuel' : Nat} {ty out : Term} {substitutions : Substitutions}
    (hle : fuel ≤ fuel') (h : specializeTy fuel preserveErased ty substitutions = some out) :
    specializeTy fuel' preserveErased ty substitutions = some out := by
  cases preserveErased with
  | true => exact h
  | false => exact specializeType_le hle h

/-- Enough fuel for every place. -/
theorem exists_answered {list : List Place} (h : ∀ place ∈ list, Clear preserveErased place) :
    ∃ fuel, ∀ place ∈ list, Answered fuel preserveErased place := by
  induction list with
  | nil => exact ⟨0, by simp⟩
  | cons place list ih =>
    obtain ⟨rest, hrest⟩ := ih fun p hp => h p (List.mem_cons_of_mem _ hp)
    have hplace : ∃ fuel, Answered fuel preserveErased place := by
      by_cases hrole : place.role = .binder
      · exact ⟨0, fun hne => absurd hrole hne⟩
      · obtain ⟨fuel, hfuel⟩ := (h place (List.mem_cons_self ..)).specializeTy hrole
        exact ⟨fuel, fun _ => ⟨_, hfuel⟩⟩
    obtain ⟨own, hown⟩ := hplace
    refine ⟨max own rest, fun p hp hrole => ?_⟩
    rcases List.mem_cons.mp hp with rfl | hp
    · obtain ⟨ty, hty⟩ := hown hrole
      exact ⟨ty, specializeTy_le (Nat.le_max_left ..) hty⟩
    · obtain ⟨ty, hty⟩ := hrest p hp hrole
      exact ⟨ty, specializeTy_le (Nat.le_max_right ..) hty⟩

/-- What the source computes at a clear place. -/
theorem Clear.produced (h : Clear preserveErased place) {fuel : Nat} {out : Term}
    (hout : Produced fuel preserveErased place out) (hrole : place.role ≠ .rebuilt) :
    out = replaceAll (applied preserveErased place).1 (applied preserveErased place).2 := by
  obtain ⟨role, bound, map, ty⟩ := place
  cases role with
  | binder => exact hout
  | rebuilt => exact absurd rfl hrole
  | expression =>
    obtain ⟨fuel', hfuel'⟩ := h.specializeTy (by simp)
    have hleft := specializeTy_le (Nat.le_max_left fuel fuel') hout
    have hright := specializeTy_le (Nat.le_max_right fuel fuel') hfuel'
    exact Option.some.inj (hleft.symm.trans hright)

theorem strip_applied :
    strip (Scope.free.pushAll place.bound)
        (replaceAll (applied preserveErased place).1 (applied preserveErased place).2) =
      strip (Scope.atOnce place.bound place.map.entries) (applied preserveErased place).2 ↔
    Chased place.bound (applied preserveErased place).1 (applied preserveErased place).2 := by
  obtain ⟨role, bound, map, ty⟩ := place
  cases role with
  | binder => exact strip_replaceAll_atOnce
  | expression | rebuilt =>
    cases preserveErased with
    | true => exact strip_replaceAll_atOnce
    | false => exact strip_telescope_atOnce

/-- **At a clear place the type is right exactly under the condition.** -/
theorem Clear.atPlace_iff (h : Clear preserveErased place) {fuel : Nat} {out : Term}
    (hout : Produced fuel preserveErased place out) :
    AtPlace preserveErased place out ↔ Settled preserveErased place := by
  have hreads : place.role ≠ .rebuilt → (strip (Scope.free.pushAll place.bound) out =
      strip (Scope.atOnce place.bound place.map.entries) (applied preserveErased place).2 ↔
      Chased place.bound (applied preserveErased place).1 (applied preserveErased place).2) := by
    intro hrole
    rw [h.produced hout hrole]
    exact strip_applied
  exact ⟨fun hplace => ⟨h, fun hrole => (hreads hrole).mp (hplace hrole)⟩,
    fun hsettled hrole => (hreads hrole).mpr (hsettled.2 hrole)⟩

end Condition

/-! ## 5. The instances of a definition -/

section Instances

variable {preserveErased : Bool} {e : Expression} {substitutions : Substitutions}

/-- The expression is specialized, and right. -/
def Right (preserveErased : Bool) (e : Expression) (substitutions : Substitutions) : Prop :=
  ∃ out, Specializes preserveErased e substitutions out ∧
    AtOnce preserveErased e substitutions out

/-- A condition at every place of the expression. -/
def Everywhere (condition : Place → Prop) (preserveErased : Bool) (e : Expression)
    (substitutions : Substitutions) : Prop :=
  ∀ place ∈ places preserveErased [] substitutions e, condition place

instance (condition : Place → Prop) [DecidablePred condition] :
    Decidable (Everywhere condition preserveErased e substitutions) :=
  inferInstanceAs (Decidable (∀ place ∈ _, condition place))

/-- Under the condition the result is right. -/
theorem right_of_settled
    (h : Everywhere (Settled preserveErased) preserveErased e substitutions) :
    Right preserveErased e substitutions := by
  obtain ⟨fuel, hfuel⟩ := exists_answered fun place hplace => (h place hplace).1
  obtain ⟨out, hout⟩ := specialized_answered hfuel
  obtain ⟨htypes, hrebuilt⟩ := specialized_produced [] hout
  refine ⟨out, ⟨fuel, hout⟩, ?_, hrebuilt⟩
  refine ((List.forall₂_and_left _ _).mpr ⟨h, htypes⟩).imp fun place ty ⟨hsettled, hty⟩ => ?_
  exact (hsettled.1.atPlace_iff hty).mpr hsettled

/-- A right result was specialized under the condition, at clear places. -/
theorem settled_of_right (hclear : Everywhere (Clear preserveErased) preserveErased e substitutions)
    (h : Right preserveErased e substitutions) :
    Everywhere (Settled preserveErased) preserveErased e substitutions := by
  obtain ⟨out, ⟨fuel, hout⟩, hright, -⟩ := h
  obtain ⟨htypes, -⟩ := specialized_produced [] hout
  have hboth : List.Forall₂ (fun place ty => Produced fuel preserveErased place ty ∧
      AtPlace preserveErased place ty) (places preserveErased [] substitutions e) (types out) := by
    rw [List.forall₂_iff_zip] at htypes ⊢
    exact ⟨htypes.1, fun hmem => ⟨htypes.2 hmem, (List.forall₂_iff_zip.mp hright).2 hmem⟩⟩
  have hsettled : List.Forall₂ (fun place _ => Settled preserveErased place ∧ True)
      (places preserveErased [] substitutions e) (types out) :=
    ((List.forall₂_and_left _ _).mpr ⟨hclear, hboth⟩).imp
      fun place ty ⟨hclear, hty, hplace⟩ => ⟨(hclear.atPlace_iff hty).mp hplace, trivial⟩
  exact ((List.forall₂_and_left _ _).mp hsettled).1

/-- **Specialization of a definition at a call.**

Where the map that the call gives is settled at every place of the body, the body is specialized
and has every mapped identifier replaced at once.  The other way around, a segment is right only
then, and so is an instance in whose types no mapped binder comes up but their own. -/
theorem specialized_at_once (ty : Term) (parameters : List (Binder Term)) (body : Expression)
    (arguments : List (Expression × Quant)) (preserveErased : Bool) :
    (Everywhere (Settled preserveErased) preserveErased body
        (instantiation ⟨ty, parameters, .Ordinary body⟩ arguments) →
      Right preserveErased body (instantiation ⟨ty, parameters, .Ordinary body⟩ arguments)) ∧
    (preserveErased = true ∨ Everywhere (Clear preserveErased) preserveErased body
        (instantiation ⟨ty, parameters, .Ordinary body⟩ arguments) →
      Right preserveErased body (instantiation ⟨ty, parameters, .Ordinary body⟩ arguments) →
      Everywhere (Settled preserveErased) preserveErased body
        (instantiation ⟨ty, parameters, .Ordinary body⟩ arguments)) := by
  refine ⟨right_of_settled, fun hclear => settled_of_right fun place hplace => ?_⟩
  rcases hclear with htrue | hclear
  · exact .inr (.inl htrue)
  · exact hclear place hplace

/-- Two erased parameters, the identifiers 1 and 2, and a value of the first. -/
def firstOf : Expression :=
  let first : Term := .Var "A" 1
  .mk .Qnt .Qnt (.Lambda ⟨.None, "A", 1, .Typ .Qnt⟩
    (.mk .Qnt .Qnt (.Lambda ⟨.None, "B", 2, .Typ .Qnt⟩
      (.mk .Qnt .Qnt (.Lambda ⟨.Lone, "x", 3, first⟩
        (.mk first (.Var "x" 3) (.Variable 3) false)) false)) false)) false

/-- The map of a call of `firstOf` with two erased arguments. -/
def firstOfAt (first second : Term) : Substitutions :=
  instantiation ⟨.Qnt, [], .Ordinary firstOf⟩
    [(.mk (.Typ .Qnt) first .Erased false, .None), (.mk (.Typ .Qnt) second .Erased false, .None)]

/-- `firstOf` called at a word and at its own second parameter. -/
theorem firstOf_word : Right true firstOf (firstOfAt (.Adt "U32" [] []) (.Var "B" 2)) :=
  (specialized_at_once .Qnt [] firstOf _ true).1 (by decide)

/-- The other way around, the value of type `B` is taken for a word. -/
theorem firstOf_own : ¬Right true firstOf (firstOfAt (.Var "B" 2) (.Adt "U32" [] [])) ∧
    ¬Right false firstOf (firstOfAt (.Var "B" 2) (.Adt "U32" [] [])) :=
  ⟨fun h => absurd (settled_of_right (by decide) h) (by decide),
    fun h => absurd (settled_of_right (by decide) h) (by decide)⟩

end Instances

end TeamyBend.Compiler
