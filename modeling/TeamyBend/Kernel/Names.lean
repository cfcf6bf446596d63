/-
# Names in terms

Which numbers a term uses freely and which it binds, and substitution of many variables at once.

The kernel substitutes without renaming.  `subst` is the same substitution for a whole
environment: at a binder it forgets what the environment says of the bound number.  Two
substitutions in a row are one (`subst_subst`) as long as no number that is free in what the
first brings in, and bound in the term, is replaced by the second.
-/
import TeamyBend.Kernel.Term

namespace TeamyBend.Kernel

/-! ## 1. Free and bound numbers -/

/-- `id` occurs freely in the term. -/
inductive FreeIn (id : Nat) : Term → Prop where
  | var {name : String} : FreeIn id (.Var name id)
  | typ {g : Term} (h : FreeIn id g) : FreeIn id (.Typ g)
  | minL {a b : Term} (h : FreeIn id a) : FreeIn id (.Min a b)
  | minR {a b : Term} (h : FreeIn id b) : FreeIn id (.Min a b)
  | domain {q : Quant} {name : String} {x : Nat} {d b : Term} (h : FreeIn id d) :
      FreeIn id (.All q name x d b)
  | codomain {q : Quant} {name : String} {x : Nat} {d b : Term} (hx : id ≠ x)
      (h : FreeIn id b) : FreeIn id (.All q name x d b)
  | lam {name : String} {x : Nat} {b : Term} (hx : id ≠ x) (h : FreeIn id b) :
      FreeIn id (.Lam name x b)
  | fn {f x : Term} (h : FreeIn id f) : FreeIn id (.App f x)
  | arg {f x : Term} (h : FreeIn id x) : FreeIn id (.App f x)
  | adt {name : String} {args : List Term} {ex : List String} {a : Term} (ha : a ∈ args)
      (h : FreeIn id a) : FreeIn id (.Adt name args ex)
  | ctr {name : String} {args : List Term} {a : Term} (ha : a ∈ args) (h : FreeIn id a) :
      FreeIn id (.Ctr name args)
  | arm {c : String} {a f : Term} (h : FreeIn id a) : FreeIn id (.Mat c a f)
  | fallback {c : String} {a f : Term} (h : FreeIn id f) : FreeIn id (.Mat c a f)
  | left {l r t : Term} (h : FreeIn id l) : FreeIn id (.Eql l r t)
  | right {l r t : Term} (h : FreeIn id r) : FreeIn id (.Eql l r t)
  | ty {l r t : Term} (h : FreeIn id t) : FreeIn id (.Eql l r t)
  | evidence {e m b : Term} (h : FreeIn id e) : FreeIn id (.Rwt e m b)
  | motive {e m b : Term} (h : FreeIn id m) : FreeIn id (.Rwt e m b)
  | body {e m b : Term} (h : FreeIn id b) : FreeIn id (.Rwt e m b)
  | value {v t : Term} (h : FreeIn id v) : FreeIn id (.Ann v t)
  | annTy {v t : Term} (h : FreeIn id t) : FreeIn id (.Ann v t)
  | letValue {bs : List (LetBinding Term)} {t : Term} {b : LetBinding Term} (hb : b ∈ bs)
      (h : FreeIn id b.value) : FreeIn id (.Let bs t)
  | letBody {bs : List (LetBinding Term)} {t : Term} (hb : ∀ b ∈ bs, b.id ≠ id)
      (h : FreeIn id t) : FreeIn id (.Let bs t)

/-- `id` is bound somewhere in the term. -/
inductive BoundIn (id : Nat) : Term → Prop where
  | typ {g : Term} (h : BoundIn id g) : BoundIn id (.Typ g)
  | minL {a b : Term} (h : BoundIn id a) : BoundIn id (.Min a b)
  | minR {a b : Term} (h : BoundIn id b) : BoundIn id (.Min a b)
  | all {q : Quant} {name : String} {d b : Term} : BoundIn id (.All q name id d b)
  | domain {q : Quant} {name : String} {x : Nat} {d b : Term} (h : BoundIn id d) :
      BoundIn id (.All q name x d b)
  | codomain {q : Quant} {name : String} {x : Nat} {d b : Term} (h : BoundIn id b) :
      BoundIn id (.All q name x d b)
  | lam {name : String} {b : Term} : BoundIn id (.Lam name id b)
  | lamBody {name : String} {x : Nat} {b : Term} (h : BoundIn id b) : BoundIn id (.Lam name x b)
  | fn {f x : Term} (h : BoundIn id f) : BoundIn id (.App f x)
  | arg {f x : Term} (h : BoundIn id x) : BoundIn id (.App f x)
  | adt {name : String} {args : List Term} {ex : List String} {a : Term} (ha : a ∈ args)
      (h : BoundIn id a) : BoundIn id (.Adt name args ex)
  | ctr {name : String} {args : List Term} {a : Term} (ha : a ∈ args) (h : BoundIn id a) :
      BoundIn id (.Ctr name args)
  | arm {c : String} {a f : Term} (h : BoundIn id a) : BoundIn id (.Mat c a f)
  | fallback {c : String} {a f : Term} (h : BoundIn id f) : BoundIn id (.Mat c a f)
  | left {l r t : Term} (h : BoundIn id l) : BoundIn id (.Eql l r t)
  | right {l r t : Term} (h : BoundIn id r) : BoundIn id (.Eql l r t)
  | ty {l r t : Term} (h : BoundIn id t) : BoundIn id (.Eql l r t)
  | evidence {e m b : Term} (h : BoundIn id e) : BoundIn id (.Rwt e m b)
  | motive {e m b : Term} (h : BoundIn id m) : BoundIn id (.Rwt e m b)
  | body {e m b : Term} (h : BoundIn id b) : BoundIn id (.Rwt e m b)
  | value {v t : Term} (h : BoundIn id v) : BoundIn id (.Ann v t)
  | annTy {v t : Term} (h : BoundIn id t) : BoundIn id (.Ann v t)
  | letBinder {bs : List (LetBinding Term)} {t : Term} {b : LetBinding Term} (hb : b ∈ bs)
      (hid : b.id = id) : BoundIn id (.Let bs t)
  | letValue {bs : List (LetBinding Term)} {t : Term} {b : LetBinding Term} (hb : b ∈ bs)
      (h : BoundIn id b.value) : BoundIn id (.Let bs t)
  | letBody {bs : List (LetBinding Term)} {t : Term} (h : BoundIn id t) : BoundIn id (.Let bs t)

@[simp] theorem freeIn_var {id x : Nat} {name : String} : FreeIn id (.Var name x) ↔ id = x := by
  constructor
  · rintro ⟨⟩
    rfl
  · rintro rfl
    exact .var

@[simp] theorem not_boundIn_var {id x : Nat} {name : String} : ¬BoundIn id (.Var name x) := by
  rintro ⟨⟩

/-! ## 2. Environments -/

/-- What is to replace each variable. -/
abbrev Env := Nat → Option Term

namespace Env

/-- Replace nothing. -/
def empty : Env := fun _ => none

/-- Forget some variables. -/
def hide (ρ : Env) (p : Nat → Bool) : Env := fun y => if p y then none else ρ y

/-- Forget one variable. -/
def drop (ρ : Env) (id : Nat) : Env := ρ.hide (· = id)

/-- Forget the variables of a `let`. -/
def dropAll (ρ : Env) (bindings : List (LetBinding Term)) : Env :=
  ρ.hide fun y => bindings.any (·.id = y)

/-- Replace one variable. -/
def set (ρ : Env) (id : Nat) (v : Term) : Env := fun y => if y = id then some v else ρ y

/-- Replace a list of variables, the first of the list last. -/
def setAll (ρ : Env) : List (Nat × Term) → Env
  | [] => ρ
  | (id, v) :: bs => (setAll ρ bs).set id v

@[simp] theorem set_self (ρ : Env) (id : Nat) (v : Term) : ρ.set id v id = some v := if_pos rfl

theorem set_of_ne (ρ : Env) {id y : Nat} (v : Term) (h : y ≠ id) : ρ.set id v y = ρ y := if_neg h

theorem hide_of_pos (ρ : Env) {p : Nat → Bool} {y : Nat} (h : p y) : ρ.hide p y = none := if_pos h

theorem hide_of_neg (ρ : Env) {p : Nat → Bool} {y : Nat} (h : ¬p y) : ρ.hide p y = ρ y := if_neg h

@[simp] theorem drop_self (ρ : Env) (id : Nat) : ρ.drop id id = none := hide_of_pos ρ (by simp)

theorem drop_of_ne (ρ : Env) {id y : Nat} (h : y ≠ id) : ρ.drop id y = ρ y :=
  hide_of_neg ρ (by simpa using h)

theorem drop_of_none (ρ : Env) {id : Nat} (h : ρ id = none) : ρ.drop id = ρ := by
  funext y
  by_cases hy : y = id
  · simp [hy, h]
  · exact drop_of_ne ρ hy

/-- Environments that agree on a variable still do. -/
theorem setAll_agree {ρ σ : Env} (bs : List (Nat × Term)) {y : Nat} (h : ρ y = σ y) :
    ρ.setAll bs y = σ.setAll bs y := by
  induction bs with
  | nil => exact h
  | cons b bs ih =>
    by_cases hy : y = b.1
    · rw [setAll, setAll, hy, set_self, set_self]
    · rw [setAll, setAll, set_of_ne _ _ hy, set_of_ne _ _ hy, ih]

/-- A variable that is set has the same value in every environment. -/
theorem setAll_of_mem (ρ σ : Env) {bs : List (Nat × Term)} {y : Nat}
    (h : y ∈ bs.map Prod.fst) : ρ.setAll bs y = σ.setAll bs y := by
  induction bs with
  | nil => cases h
  | cons b bs ih =>
    by_cases hy : y = b.1
    · rw [setAll, setAll, hy, set_self, set_self]
    · rw [setAll, setAll, set_of_ne _ _ hy, set_of_ne _ _ hy]
      exact ih ((List.mem_cons.mp h).resolve_left hy)

/-- The bindings in front come last, and hide the others. -/
theorem setAll_append (ρ : Env) (as bs : List (Nat × Term)) :
    ρ.setAll (as ++ bs) = (ρ.setAll bs).setAll as := by
  induction as with
  | nil => rfl
  | cons a as ih => rw [List.cons_append, setAll, setAll, ih]

/-- A variable that is not set keeps its value. -/
theorem setAll_of_not_mem (ρ : Env) {bs : List (Nat × Term)} {y : Nat}
    (h : y ∉ bs.map Prod.fst) : ρ.setAll bs y = ρ y := by
  induction bs with
  | nil => rfl
  | cons b bs ih =>
    simp only [List.map_cons, List.mem_cons, not_or] at h
    rw [setAll, set_of_ne _ _ h.1, ih h.2]

/-- A variable of the bindings has no value. -/
theorem dropAll_of_any (ρ : Env) {bindings : List (LetBinding Term)} {y : Nat}
    (h : bindings.any (·.id = y)) : ρ.dropAll bindings y = none := hide_of_pos ρ h

/-- Another one keeps its own. -/
theorem dropAll_of_not_any (ρ : Env) {bindings : List (LetBinding Term)} {y : Nat}
    (h : ¬bindings.any (·.id = y)) : ρ.dropAll bindings y = ρ y := hide_of_neg ρ h

@[simp] theorem dropAll_empty (bindings : List (LetBinding Term)) :
    empty.dropAll bindings = empty := by
  funext y
  simp [dropAll, hide, empty]

/-- What was set for a variable of the bindings is dropped with it. -/
theorem dropAll_set_of_any (ρ : Env) {bindings : List (LetBinding Term)} {x : Nat} (v : Term)
    (h : bindings.any (·.id = x)) : (ρ.set x v).dropAll bindings = ρ.dropAll bindings := by
  funext y
  by_cases hy : bindings.any (·.id = y)
  · rw [dropAll_of_any _ hy, dropAll_of_any _ hy]
  · rw [dropAll_of_not_any _ hy, dropAll_of_not_any _ hy, set_of_ne]
    rintro rfl
    exact hy h

/-- What was set for another one stays. -/
theorem dropAll_set_of_not_any (ρ : Env) {bindings : List (LetBinding Term)} {x : Nat} (v : Term)
    (h : ¬bindings.any (·.id = x)) :
    (ρ.set x v).dropAll bindings = (ρ.dropAll bindings).set x v := by
  funext y
  by_cases hx : y = x
  · rw [hx, set_self, dropAll_of_not_any _ h, set_self]
  · rw [set_of_ne _ _ hx]
    by_cases hy : bindings.any (·.id = y)
    · rw [dropAll_of_any _ hy, dropAll_of_any _ hy]
    · rw [dropAll_of_not_any _ hy, dropAll_of_not_any _ hy, set_of_ne _ _ hx]

end Env

/-! ## 3. Simultaneous substitution -/

mutual

/-- Replace the variables of an environment. -/
def subst (ρ : Env) : Term → Term
  | .Var name id => (ρ id).getD (.Var name id)
  | .Typ g => .Typ (subst ρ g)
  | .Min a b => .Min (subst ρ a) (subst ρ b)
  | .All quant name id domain body => .All quant name id (subst ρ domain) (subst (ρ.drop id) body)
  | .Lam name id body => .Lam name id (subst (ρ.drop id) body)
  | .App f x => .App (subst ρ f) (subst ρ x)
  | .Adt name args excluded => .Adt name (substArgs ρ args) excluded
  | .Ctr name args => .Ctr name (substArgs ρ args)
  | .Mat constructor arm fallback => .Mat constructor (subst ρ arm) (subst ρ fallback)
  | .Eql left right ty => .Eql (subst ρ left) (subst ρ right) (subst ρ ty)
  | .Rwt evidence motive body => .Rwt (subst ρ evidence) (subst ρ motive) (subst ρ body)
  | .Ann value ty => .Ann (subst ρ value) (subst ρ ty)
  | .Let bindings body => .Let (substBindings ρ bindings) (subst (ρ.dropAll bindings) body)
  | t => t

/-- `subst` on an argument list. -/
def substArgs (ρ : Env) : List Term → List Term
  | [] => []
  | a :: args => subst ρ a :: substArgs ρ args

/-- `subst` on the values of a `let`. -/
def substBindings (ρ : Env) : List (LetBinding Term) → List (LetBinding Term)
  | [] => []
  | ⟨quant, name, id, value⟩ :: bindings =>
    ⟨quant, name, id, subst ρ value⟩ :: substBindings ρ bindings

end

attribute [local simp] subst substArgs substBindings

/-- The arguments are substituted one by one. -/
@[simp] theorem substArgs_eq (ρ : Env) (args : List Term) :
    substArgs ρ args = args.map (subst ρ) := by
  induction args with
  | nil => rfl
  | cons a args ih => simp [substArgs, ih]

/-- The values of a `let` are, and its binders stay. -/
@[simp] theorem substBindings_eq (ρ : Env) (bindings : List (LetBinding Term)) :
    substBindings ρ bindings = bindings.map fun b => { b with value := subst ρ b.value } := by
  induction bindings with
  | nil => rfl
  | cons b bindings ih => simp [substBindings, ih]

/-- The binders of a `let` are those of its bindings, whatever their values. -/
@[simp] theorem dropAll_substBindings (ρ σ : Env) (bindings : List (LetBinding Term)) :
    ρ.dropAll (bindings.map fun b => { b with value := subst σ b.value }) =
      ρ.dropAll bindings := by
  funext y
  simp [Env.dropAll, Env.hide, List.any_map, Function.comp_def]

/-- Substitution only looks at the free variables. -/
theorem subst_congr {ρ σ : Env} {t : Term} (h : ∀ id, FreeIn id t → ρ id = σ id) :
    subst ρ t = subst σ t := by
  induction t generalizing ρ σ with
  | Var name id => simp [subst, h id .var]
  | Ref | GpuRef | Qnt | Qua | Efq | Rfl | Hole => rfl
  | Typ g ih => simp [subst, ih fun id hid => h id (.typ hid)]
  | Min a b iha ihb =>
    simp [subst, iha fun id hid => h id (.minL hid), ihb fun id hid => h id (.minR hid)]
  | All q name x d b ihd ihb =>
    have hb : subst (ρ.drop x) b = subst (σ.drop x) b := by
      refine ihb fun id hid => ?_
      by_cases hx : id = x
      · simp [hx]
      · simpa [Env.drop_of_ne _ hx] using h id (.codomain hx hid)
    simp [subst, ihd fun id hid => h id (.domain hid), hb]
  | Lam name x b ihb =>
    have hb : subst (ρ.drop x) b = subst (σ.drop x) b := by
      refine ihb fun id hid => ?_
      by_cases hx : id = x
      · simp [hx]
      · simpa [Env.drop_of_ne _ hx] using h id (.lam hx hid)
    simp [subst, hb]
  | App f x ihf ihx =>
    simp [subst, ihf fun id hid => h id (.fn hid), ihx fun id hid => h id (.arg hid)]
  | Adt name args ex ih =>
    have hargs : args.map (subst ρ) = args.map (subst σ) :=
      List.map_congr_left fun a ha => ih a ha fun id hid => h id (.adt ha hid)
    simp [subst, hargs]
  | Ctr name args ih =>
    have hargs : args.map (subst ρ) = args.map (subst σ) :=
      List.map_congr_left fun a ha => ih a ha fun id hid => h id (.ctr ha hid)
    simp [subst, hargs]
  | Mat c a f iha ihf =>
    simp [subst, iha fun id hid => h id (.arm hid), ihf fun id hid => h id (.fallback hid)]
  | Eql l r t ihl ihr iht =>
    simp [subst, ihl fun id hid => h id (.left hid), ihr fun id hid => h id (.right hid),
      iht fun id hid => h id (.ty hid)]
  | Rwt e m b ihe ihm ihb =>
    simp [subst, ihe fun id hid => h id (.evidence hid), ihm fun id hid => h id (.motive hid),
      ihb fun id hid => h id (.body hid)]
  | Ann v t ihv iht =>
    simp [subst, ihv fun id hid => h id (.value hid), iht fun id hid => h id (.annTy hid)]
  | Let bs t ihs iht =>
    have hbs : (bs.map fun b => { b with value := subst ρ b.value }) =
        bs.map fun b => { b with value := subst σ b.value } :=
      List.map_congr_left fun b hb => by rw [ihs b hb fun id hid => h id (.letValue hb hid)]
    have ht : subst (ρ.dropAll bs) t = subst (σ.dropAll bs) t := by
      refine iht fun id hid => ?_
      by_cases hany : bs.any (·.id = id)
      · rw [Env.dropAll_of_any _ hany, Env.dropAll_of_any _ hany]
      · rw [Env.dropAll_of_not_any _ hany, Env.dropAll_of_not_any _ hany]
        refine h id (.letBody (fun b hb heq => hany ?_) hid)
        exact List.any_eq_true.mpr ⟨b, hb, by simpa using heq⟩
    simp [subst, hbs, ht]

/-- Nothing to replace. -/
@[simp] theorem subst_empty (t : Term) : subst .empty t = t := by
  have hdrop : ∀ x, Env.empty.drop x = .empty := fun x => Env.drop_of_none _ rfl
  induction t with
  | Var name id => rfl
  | Ref | GpuRef | Qnt | Qua | Efq | Rfl | Hole => rfl
  | Typ g ih => simp [subst, ih]
  | Min a b iha ihb => simp [subst, iha, ihb]
  | All q name x d b ihd ihb => simp [subst, hdrop, ihd, ihb]
  | Lam name x b ihb => simp [subst, hdrop, ihb]
  | App f x ihf ihx => simp [subst, ihf, ihx]
  | Adt name args ex ih => simpa [subst] using (List.map_congr_left ih).trans (List.map_id' args)
  | Ctr name args ih => simpa [subst] using (List.map_congr_left ih).trans (List.map_id' args)
  | Mat c a f iha ihf => simp [subst, iha, ihf]
  | Eql l r t ihl ihr iht => simp [subst, ihl, ihr, iht]
  | Rwt e m b ihe ihm ihb => simp [subst, ihe, ihm, ihb]
  | Ann v t ihv iht => simp [subst, ihv, iht]
  | Let bs t ihs iht =>
    have hbs : (bs.map fun b => { b with value := subst .empty b.value }) = bs :=
      (List.map_congr_left fun b hb => by rw [ihs b hb]).trans (List.map_id' bs)
    simp [subst, hbs, iht]

/-- `substitute` replaces one variable. -/
theorem substitute_eq (x : Nat) (v t : Term) : substitute x v t = subst (Env.empty.set x v) t := by
  have hdrop : ∀ id, id ≠ x → (Env.empty.set x v).drop id = Env.empty.set x v := fun id hid =>
    Env.drop_of_none _ (by simp [Env.set, Env.empty, hid])
  have hself : (Env.empty.set x v).drop x = .empty := by
    funext y
    by_cases hy : y = x <;> simp [Env.drop, Env.hide, Env.set, Env.empty, hy]
  have hbody : ∀ (id : Nat) (b : Term), substitute x v b = subst (Env.empty.set x v) b →
      (if id = x then b else substitute x v b) = subst ((Env.empty.set x v).drop id) b := by
    intro id b hb
    by_cases hid : id = x
    · rw [if_pos hid, hid, hself, subst_empty]
    · rw [if_neg hid, hdrop id hid, hb]
  induction t with
  | Var name id =>
    by_cases hid : id = x
    · simp [substitute, subst, hid]
    · simp [substitute, subst, hid, Env.set_of_ne, Env.empty]
  | Ref | GpuRef | Qnt | Qua | Efq | Rfl | Hole => rfl
  | Typ g ih => simp [substitute, subst, ih]
  | Min a b iha ihb => simp [substitute, subst, iha, ihb]
  | All q name id d b ihd ihb => simp [substitute, subst, hbody id b ihb, ihd]
  | Lam name id b ihb => simp [substitute, subst, hbody id b ihb]
  | App f a ihf iha => simp [substitute, subst, ihf, iha]
  | Adt name args ex ih => simpa [substitute, subst] using ih
  | Ctr name args ih => simpa [substitute, subst] using ih
  | Mat c a f iha ihf => simp [substitute, subst, iha, ihf]
  | Eql l r t ihl ihr iht => simp [substitute, subst, ihl, ihr, iht]
  | Rwt e m b ihe ihm ihb => simp [substitute, subst, ihe, ihm, ihb]
  | Ann a t iha iht => simp [substitute, subst, iha, iht]
  | Let bs t ihs iht =>
    have hbs : (bs.map fun b => { b with value := substitute x v b.value }) =
        bs.map fun b => { b with value := subst (Env.empty.set x v) b.value } :=
      List.map_congr_left fun b hb => by rw [ihs b hb]
    have ht : (if bs.any (·.id = x) then t else substitute x v t) =
        subst ((Env.empty.set x v).dropAll bs) t := by
      by_cases hany : bs.any (·.id = x)
      · rw [if_pos hany, Env.dropAll_set_of_any _ _ hany, Env.dropAll_empty, subst_empty]
      · rw [if_neg hany, iht, Env.dropAll_set_of_not_any _ _ hany, Env.dropAll_empty]
    simp only [substitute, subst, substituteBindings_eq, substBindings_eq, hbs, ht]

/-! ## 4. Two substitutions in a row -/

/-- First `σ`, then `ρ`. -/
def Env.comp (ρ σ : Env) : Env := fun y =>
  match σ y with
  | some u => some (subst ρ u)
  | none => ρ y

/-- Under binders: both substitutions forget the bound numbers. -/
theorem subst_subst_binder {ρ σ : Env} {b : Term} {p : Nat → Bool}
    (ih : ∀ {ρ σ : Env}, (∀ x u id, σ x = some u → FreeIn id u → BoundIn id b → ρ id = none) →
      subst ρ (subst σ b) = subst (ρ.comp σ) b)
    (h : ∀ x u id, σ x = some u → FreeIn id u → BoundIn id b → ρ id = none)
    (hp : ∀ x u id, σ x = some u → FreeIn id u → p id → ρ id = none) :
    subst (ρ.hide p) (subst (σ.hide p) b) = subst ((ρ.comp σ).hide p) b := by
  rw [ih]
  · refine subst_congr fun z _ => ?_
    by_cases hz : p z
    · simp [Env.hide_of_pos _ hz, Env.comp]
    · simp only [Env.comp, Env.hide_of_neg _ hz]
      cases hσ : σ z with
      | none => rfl
      | some u =>
        refine congrArg some (subst_congr fun id hid => ?_)
        by_cases hpid : p id
        · rw [Env.hide_of_pos _ hpid, hp z u id hσ hid hpid]
        · exact Env.hide_of_neg _ hpid
  · intro x u id hx hu hb
    by_cases hpx : p x
    · simp [Env.hide_of_pos _ hpx] at hx
    · rw [Env.hide_of_neg _ hpx] at hx
      by_cases hpid : p id
      · exact Env.hide_of_pos _ hpid
      · rw [Env.hide_of_neg _ hpid]
        exact h x u id hx hu hb

/-- **Two substitutions are one**, when `ρ` leaves alone every number that is free in what `σ`
brings in and bound in the term. -/
theorem subst_subst {ρ σ : Env} {t : Term}
    (h : ∀ x u id, σ x = some u → FreeIn id u → BoundIn id t → ρ id = none) :
    subst ρ (subst σ t) = subst (ρ.comp σ) t := by
  induction t generalizing ρ σ with
  | Var name id =>
    simp only [subst, Env.comp]
    cases hσ : σ id with
    | none => rfl
    | some u => rfl
  | Ref | GpuRef | Qnt | Qua | Efq | Rfl | Hole => rfl
  | Typ g ih => simp [subst, ih fun x u id hx hu hb => h x u id hx hu (.typ hb)]
  | Min a b iha ihb =>
    simp [subst, iha fun x u id hx hu hb => h x u id hx hu (.minL hb),
      ihb fun x u id hx hu hb => h x u id hx hu (.minR hb)]
  | All q name y d b ihd ihb =>
    have hb := subst_subst_binder (p := (· = y)) ihb
      (fun x u id hx hu hb => h x u id hx hu (.codomain hb)) fun x u id hx hu hid => by
        obtain rfl : id = y := by simpa using hid
        exact h x u id hx hu .all
    simp [subst, Env.drop, hb, ihd fun x u id hx hu hb => h x u id hx hu (.domain hb)]
  | Lam name y b ihb =>
    have hb := subst_subst_binder (p := (· = y)) ihb
      (fun x u id hx hu hb => h x u id hx hu (.lamBody hb)) fun x u id hx hu hid => by
        obtain rfl : id = y := by simpa using hid
        exact h x u id hx hu .lam
    simp [subst, Env.drop, hb]
  | App f x ihf ihx =>
    simp [subst, ihf fun x u id hx hu hb => h x u id hx hu (.fn hb),
      ihx fun x u id hx hu hb => h x u id hx hu (.arg hb)]
  | Adt name args ex ih =>
    have hargs := List.map_congr_left fun a ha =>
      ih a ha fun x u id hx hu hb => h x u id hx hu (.adt ha hb)
    simpa [subst] using hargs
  | Ctr name args ih =>
    have hargs := List.map_congr_left fun a ha =>
      ih a ha fun x u id hx hu hb => h x u id hx hu (.ctr ha hb)
    simpa [subst] using hargs
  | Mat c a f iha ihf =>
    simp [subst, iha fun x u id hx hu hb => h x u id hx hu (.arm hb),
      ihf fun x u id hx hu hb => h x u id hx hu (.fallback hb)]
  | Eql l r t ihl ihr iht =>
    simp [subst, ihl fun x u id hx hu hb => h x u id hx hu (.left hb),
      ihr fun x u id hx hu hb => h x u id hx hu (.right hb),
      iht fun x u id hx hu hb => h x u id hx hu (.ty hb)]
  | Rwt e m b ihe ihm ihb =>
    simp [subst, ihe fun x u id hx hu hb => h x u id hx hu (.evidence hb),
      ihm fun x u id hx hu hb => h x u id hx hu (.motive hb),
      ihb fun x u id hx hu hb => h x u id hx hu (.body hb)]
  | Ann v t ihv iht =>
    simp [subst, ihv fun x u id hx hu hb => h x u id hx hu (.value hb),
      iht fun x u id hx hu hb => h x u id hx hu (.annTy hb)]
  | Let bs t ihs iht =>
    have ht := subst_subst_binder (p := fun y => bs.any (·.id = y)) iht
      (fun x u id hx hu hb => h x u id hx hu (.letBody hb)) fun x u id hx hu hid => by
        obtain ⟨b, hb, hbid⟩ := List.any_eq_true.mp hid
        exact h x u id hx hu (.letBinder hb (by simpa using hbid))
    have hbs : (bs.map fun b => { b with value := subst ρ (subst σ b.value) }) =
        bs.map fun b => { b with value := subst (ρ.comp σ) b.value } :=
      List.map_congr_left fun b hb => by
        rw [ihs b hb fun x u id hx hu hbound => h x u id hx hu (.letValue hb hbound)]
    simp only [subst, substBindings_eq, List.map_map, Function.comp_def, dropAll_substBindings]
    simp only [Env.dropAll] at ht ⊢
    rw [hbs, ht]

/-! ## 5. The numbers of a substituted term -/

/-- `id` is free in `t` and kept by `ρ`, or free in what `ρ` puts for a variable of `t`. -/
def Comes (ρ : Env) (t : Term) (id : Nat) : Prop :=
  (FreeIn id t ∧ ρ id = none) ∨ ∃ x u, FreeIn x t ∧ ρ x = some u ∧ FreeIn id u

/-- What comes from a term comes from one with more free variables. -/
theorem Comes.mono {ρ : Env} {t t' : Term} {id : Nat} (h : Comes ρ t id)
    (hsub : ∀ z, FreeIn z t → FreeIn z t') : Comes ρ t' id :=
  h.imp (fun h => ⟨hsub _ h.1, h.2⟩) fun ⟨x, u, hx, hu⟩ => ⟨x, u, hsub x hx, hu⟩

/-- The same out of the scope of binders. -/
theorem Comes.out {ρ : Env} {t t' : Term} {id : Nat} {p : Nat → Bool} (h : Comes (ρ.hide p) t id)
    (hid : ¬p id) (hsub : ∀ z, ¬p z → FreeIn z t → FreeIn z t') : Comes ρ t' id := by
  rcases h with ⟨hfree, hnone⟩ | ⟨x, u, hx, hρ, hu⟩
  · exact .inl ⟨hsub id hid hfree, by rwa [Env.hide_of_neg _ hid] at hnone⟩
  · have hpx : ¬p x := fun hpx => by simp [Env.hide_of_pos _ hpx] at hρ
    exact .inr ⟨x, u, hsub x hpx hx, by rwa [Env.hide_of_neg _ hpx] at hρ, hu⟩

/-- **A number that is free after a substitution** was free and kept, or came in. -/
theorem FreeIn.of_subst {ρ : Env} {t : Term} {id : Nat} (h : FreeIn id (subst ρ t)) :
    Comes ρ t id := by
  induction t generalizing ρ with
  | Var name x =>
    simp only [subst] at h
    cases hρ : ρ x with
    | none =>
      rw [hρ, Option.getD_none] at h
      cases h
      exact .inl ⟨.var, hρ⟩
    | some u =>
      rw [hρ] at h
      exact .inr ⟨x, u, .var, hρ, h⟩
  | Ref | GpuRef | Qnt | Qua | Efq | Rfl | Hole => cases h
  | Typ g ih =>
    cases h with
    | typ h => exact (ih h).mono fun _ => .typ
  | Min a b iha ihb =>
    cases h with
    | minL h => exact (iha h).mono fun _ => .minL
    | minR h => exact (ihb h).mono fun _ => .minR
  | All q name y d b ihd ihb =>
    cases h with
    | domain h => exact (ihd h).mono fun _ => .domain
    | codomain hy h =>
      exact (ihb h).out (by simpa using hy) fun z hz => .codomain (by simpa using hz)
  | Lam name y b ihb =>
    cases h with
    | lam hy h => exact (ihb h).out (by simpa using hy) fun z hz => .lam (by simpa using hz)
  | App f x ihf ihx =>
    cases h with
    | fn h => exact (ihf h).mono fun _ => .fn
    | arg h => exact (ihx h).mono fun _ => .arg
  | Adt name args ex ih =>
    rw [subst, substArgs_eq] at h
    cases h with
    | adt ha h =>
      obtain ⟨a, hmem, rfl⟩ := List.mem_map.mp ha
      exact (ih a hmem h).mono fun _ => .adt hmem
  | Ctr name args ih =>
    rw [subst, substArgs_eq] at h
    cases h with
    | ctr ha h =>
      obtain ⟨a, hmem, rfl⟩ := List.mem_map.mp ha
      exact (ih a hmem h).mono fun _ => .ctr hmem
  | Mat c a f iha ihf =>
    cases h with
    | arm h => exact (iha h).mono fun _ => .arm
    | fallback h => exact (ihf h).mono fun _ => .fallback
  | Eql l r t ihl ihr iht =>
    cases h with
    | left h => exact (ihl h).mono fun _ => .left
    | right h => exact (ihr h).mono fun _ => .right
    | ty h => exact (iht h).mono fun _ => .ty
  | Rwt e m b ihe ihm ihb =>
    cases h with
    | evidence h => exact (ihe h).mono fun _ => .evidence
    | motive h => exact (ihm h).mono fun _ => .motive
    | body h => exact (ihb h).mono fun _ => .body
  | Ann v t ihv iht =>
    cases h with
    | value h => exact (ihv h).mono fun _ => .value
    | annTy h => exact (iht h).mono fun _ => .annTy
  | Let bs t ihs iht =>
    rw [subst, substBindings_eq] at h
    cases h with
    | letValue hb h =>
      obtain ⟨b, hmem, rfl⟩ := List.mem_map.mp hb
      exact (ihs b hmem h).mono fun _ => .letValue hmem
    | letBody hkeep h =>
      refine (iht h).out (fun hany => ?_) fun z hz => .letBody fun b hb heq => hz ?_
      · obtain ⟨b, hb, hbid⟩ := List.any_eq_true.mp hany
        exact hkeep _ (List.mem_map_of_mem hb) (by simpa using hbid)
      · exact List.any_eq_true.mpr ⟨b, hb, by simpa using heq⟩

/-- `ρ` brings in a binder of `id`. -/
def Env.Binds (ρ : Env) (id : Nat) : Prop := ∃ x u, ρ x = some u ∧ BoundIn id u

/-- What a part of an environment binds, the environment binds. -/
theorem Env.Binds.of_hide {ρ : Env} {p : Nat → Bool} {id : Nat} (h : (ρ.hide p).Binds id) :
    ρ.Binds id := by
  obtain ⟨x, u, hx, hu⟩ := h
  by_cases hp : p x
  · simp [Env.hide_of_pos _ hp] at hx
  · exact ⟨x, u, by rwa [Env.hide_of_neg _ hp] at hx, hu⟩

/-- **A number that is bound after a substitution** was bound, or is bound in what came in. -/
theorem BoundIn.of_subst {ρ : Env} {t : Term} {id : Nat} (h : BoundIn id (subst ρ t)) :
    BoundIn id t ∨ ρ.Binds id := by
  induction t generalizing ρ with
  | Var name x =>
    simp only [subst] at h
    cases hρ : ρ x with
    | none =>
      rw [hρ, Option.getD_none] at h
      cases h
    | some u =>
      rw [hρ] at h
      exact .inr ⟨x, u, hρ, h⟩
  | Ref | GpuRef | Qnt | Qua | Efq | Rfl | Hole => cases h
  | Typ g ih =>
    cases h with
    | typ h => exact (ih h).imp_left .typ
  | Min a b iha ihb =>
    cases h with
    | minL h => exact (iha h).imp_left .minL
    | minR h => exact (ihb h).imp_left .minR
  | All q name y d b ihd ihb =>
    cases h with
    | all => exact .inl .all
    | domain h => exact (ihd h).imp_left .domain
    | codomain h => exact (ihb h).imp .codomain .of_hide
  | Lam name y b ihb =>
    cases h with
    | lam => exact .inl .lam
    | lamBody h => exact (ihb h).imp .lamBody .of_hide
  | App f x ihf ihx =>
    cases h with
    | fn h => exact (ihf h).imp_left .fn
    | arg h => exact (ihx h).imp_left .arg
  | Adt name args ex ih =>
    rw [subst, substArgs_eq] at h
    cases h with
    | adt ha h =>
      obtain ⟨a, hmem, rfl⟩ := List.mem_map.mp ha
      exact (ih a hmem h).imp_left (.adt hmem)
  | Ctr name args ih =>
    rw [subst, substArgs_eq] at h
    cases h with
    | ctr ha h =>
      obtain ⟨a, hmem, rfl⟩ := List.mem_map.mp ha
      exact (ih a hmem h).imp_left (.ctr hmem)
  | Mat c a f iha ihf =>
    cases h with
    | arm h => exact (iha h).imp_left .arm
    | fallback h => exact (ihf h).imp_left .fallback
  | Eql l r t ihl ihr iht =>
    cases h with
    | left h => exact (ihl h).imp_left .left
    | right h => exact (ihr h).imp_left .right
    | ty h => exact (iht h).imp_left .ty
  | Rwt e m b ihe ihm ihb =>
    cases h with
    | evidence h => exact (ihe h).imp_left .evidence
    | motive h => exact (ihm h).imp_left .motive
    | body h => exact (ihb h).imp_left .body
  | Ann v t ihv iht =>
    cases h with
    | value h => exact (ihv h).imp_left .value
    | annTy h => exact (iht h).imp_left .annTy
  | Let bs t ihs iht =>
    rw [subst, substBindings_eq] at h
    cases h with
    | letBinder hb hid =>
      obtain ⟨b, hmem, rfl⟩ := List.mem_map.mp hb
      exact .inl (.letBinder hmem hid)
    | letValue hb h =>
      obtain ⟨b, hmem, rfl⟩ := List.mem_map.mp hb
      exact (ihs b hmem h).imp_left (.letValue hmem)
    | letBody h => exact (iht h).imp .letBody .of_hide

/-! ## 6. One variable -/

/-- A free variable after a substitution was free, or comes with the value. -/
theorem FreeIn.of_substitute {id x : Nat} {v t : Term} (h : FreeIn id (substitute x v t)) :
    (FreeIn id t ∧ id ≠ x) ∨ FreeIn id v := by
  rw [substitute_eq] at h
  rcases h.of_subst with ⟨hfree, hnone⟩ | ⟨y, u, -, hy, hu⟩
  · refine .inl ⟨hfree, fun hid => ?_⟩
    rw [hid, Env.set_self] at hnone
    cases hnone
  · by_cases hyx : y = x
    · rw [hyx, Env.set_self] at hy
      cases hy
      exact .inr hu
    · rw [Env.set_of_ne _ _ hyx] at hy
      cases hy

/-- A binder after a substitution was one, or comes with the value. -/
theorem BoundIn.of_substitute {id x : Nat} {v t : Term} (h : BoundIn id (substitute x v t)) :
    BoundIn id t ∨ BoundIn id v := by
  rw [substitute_eq] at h
  refine h.of_subst.imp_right ?_
  rintro ⟨y, u, hy, hu⟩
  by_cases hyx : y = x
  · rw [hyx, Env.set_self] at hy
    cases hy
    exact hu
  · rw [Env.set_of_ne _ _ hyx] at hy
    cases hy

/-! ## 7. Numbers in use -/

/-- All numbers of a term, free or bound, are below `n`. -/
def Below (n : Nat) (t : Term) : Prop := ∀ x, FreeIn x t ∨ BoundIn x t → x < n

/-- A larger bound is one, too. -/
theorem Below.mono {m n : Nat} {t : Term} (h : Below m t) (hmn : m ≤ n) : Below n t :=
  fun x hx => Nat.lt_of_lt_of_le (h x hx) hmn

/-- A part of a term, if its numbers are numbers of the term. -/
theorem Below.part {n : Nat} {s t : Term} (h : Below n t) (hfree : ∀ x, FreeIn x s → FreeIn x t)
    (hbound : ∀ x, BoundIn x s → BoundIn x t) : Below n s :=
  fun x hx => h x (hx.imp (hfree x) (hbound x))

/-- The body of a lambda is below the bound. -/
theorem Below.lam {n id : Nat} {name : String} {body : Term} (h : Below n (.Lam name id body)) :
    Below n body := by
  intro x hx
  by_cases hxid : x = id
  · exact hxid ▸ h id (.inr .lam)
  · exact h x (hx.imp (.lam hxid) .lamBody)

theorem Below.codomain {n id : Nat} {quant : Quant} {name : String} {domain body : Term}
    (h : Below n (.All quant name id domain body)) : Below n body := by
  intro x hx
  by_cases hxid : x = id
  · exact hxid ▸ h id (.inr .all)
  · exact h x (hx.imp (.codomain hxid) .codomain)

/-- The body of a `let` is. -/
theorem Below.letBody {n : Nat} {bindings : List (LetBinding Term)} {body : Term}
    (h : Below n (.Let bindings body)) : Below n body := by
  intro x hx
  by_cases hb : ∃ b ∈ bindings, b.id = x
  · obtain ⟨b, hb, rfl⟩ := hb
    exact h b.id (.inr (.letBinder hb rfl))
  · exact h x (hx.imp (fun hx => .letBody (fun b hmem heq => hb ⟨b, hmem, heq⟩) hx) .letBody)

/-- Substitution brings in no other numbers. -/
theorem Below.substitute {n id : Nat} {v t : Term} (h : Below n t) (hv : Below n v) :
    Below n (substitute id v t) := by
  rintro x (hx | hx)
  · rcases hx.of_substitute with ⟨hfree, -⟩ | hfree
    · exact h x (.inl hfree)
    · exact hv x (.inl hfree)
  · rcases hx.of_substitute with hbound | hbound
    · exact h x (.inr hbound)
    · exact hv x (.inr hbound)

/-- A variable is below a bound that its number is below. -/
theorem below_var {n id : Nat} {name : String} (h : id < n) : Below n (.Var name id) := by
  intro x hx
  rcases hx with hx | hx
  · rwa [freeIn_var.mp hx]
  · exact absurd hx not_boundIn_var

/-! ## 8. Constructor by constructor -/

theorem freeIn_app {id : Nat} {f x : Term} :
    FreeIn id (.App f x) ↔ FreeIn id f ∨ FreeIn id x := by
  constructor
  · intro h
    cases h with
    | fn h => exact .inl h
    | arg h => exact .inr h
  · rintro (h | h)
    · exact .fn h
    · exact .arg h

theorem boundIn_app {id : Nat} {f x : Term} :
    BoundIn id (.App f x) ↔ BoundIn id f ∨ BoundIn id x := by
  constructor
  · intro h
    cases h with
    | fn h => exact .inl h
    | arg h => exact .inr h
  · rintro (h | h)
    · exact .fn h
    · exact .arg h

theorem freeIn_lam {id x : Nat} {name : String} {b : Term} :
    FreeIn id (.Lam name x b) ↔ id ≠ x ∧ FreeIn id b := by
  constructor
  · intro h
    cases h with
    | lam hx h => exact ⟨hx, h⟩
  · exact fun h => .lam h.1 h.2

theorem boundIn_lam {id x : Nat} {name : String} {b : Term} :
    BoundIn id (.Lam name x b) ↔ id = x ∨ BoundIn id b := by
  constructor
  · intro h
    cases h with
    | lam => exact .inl rfl
    | lamBody h => exact .inr h
  · rintro (rfl | h)
    · exact .lam
    · exact .lamBody h

theorem freeIn_rwt {id : Nat} {e m b : Term} :
    FreeIn id (.Rwt e m b) ↔ FreeIn id e ∨ FreeIn id m ∨ FreeIn id b := by
  constructor
  · intro h
    cases h with
    | evidence h => exact .inl h
    | motive h => exact .inr (.inl h)
    | body h => exact .inr (.inr h)
  · rintro (h | h | h)
    · exact .evidence h
    · exact .motive h
    · exact .body h

theorem boundIn_rwt {id : Nat} {e m b : Term} :
    BoundIn id (.Rwt e m b) ↔ BoundIn id e ∨ BoundIn id m ∨ BoundIn id b := by
  constructor
  · intro h
    cases h with
    | evidence h => exact .inl h
    | motive h => exact .inr (.inl h)
    | body h => exact .inr (.inr h)
  · rintro (h | h | h)
    · exact .evidence h
    · exact .motive h
    · exact .body h

theorem freeIn_ctr {id : Nat} {name : String} {args : List Term} :
    FreeIn id (.Ctr name args) ↔ ∃ a ∈ args, FreeIn id a := by
  constructor
  · intro h
    cases h with
    | ctr ha h => exact ⟨_, ha, h⟩
  · exact fun ⟨_, ha, h⟩ => .ctr ha h

theorem boundIn_ctr {id : Nat} {name : String} {args : List Term} :
    BoundIn id (.Ctr name args) ↔ ∃ a ∈ args, BoundIn id a := by
  constructor
  · intro h
    cases h with
    | ctr ha h => exact ⟨_, ha, h⟩
  · exact fun ⟨_, ha, h⟩ => .ctr ha h

theorem not_freeIn_ref {id : Nat} {name : String} : ¬FreeIn id (.Ref name) := by
  rintro ⟨⟩

theorem not_boundIn_ref {id : Nat} {name : String} : ¬BoundIn id (.Ref name) := by
  rintro ⟨⟩

theorem not_freeIn_qnt {id : Nat} : ¬FreeIn id .Qnt := by
  rintro ⟨⟩

theorem not_boundIn_qnt {id : Nat} : ¬BoundIn id .Qnt := by
  rintro ⟨⟩

theorem not_freeIn_efq {id : Nat} : ¬FreeIn id .Efq := by
  rintro ⟨⟩

theorem not_boundIn_efq {id : Nat} : ¬BoundIn id .Efq := by
  rintro ⟨⟩

theorem not_freeIn_rfl {id : Nat} : ¬FreeIn id .Rfl := by
  rintro ⟨⟩

theorem not_boundIn_rfl {id : Nat} : ¬BoundIn id .Rfl := by
  rintro ⟨⟩

end TeamyBend.Kernel
