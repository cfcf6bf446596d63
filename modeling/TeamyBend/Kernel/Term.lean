/-
# Core terms

The core syntax of `term.rs`.  Binders carry names and numbers, and a term is only ever read
through the numbers.  `Rc` disappears: two pointers to equal nodes are one term here, and where
the source asks whether two pointers are the same the engine has its own parameter for it.

`substitute` stops at a binder with the number it replaces and renames nothing.  It is the
traversal of the source written as a recursion, with one helper for argument lists and one for
the bindings of a `let`.
-/
import TeamyBend.Kernel.Error
import Mathlib.Data.List.Basic

namespace TeamyBend.Kernel

/-! ## 1. Quantities -/

/-- `enum Quant`. -/
inductive Quant where
  | None
  | Lone
  | Many
  deriving Repr, DecidableEq

namespace Quant

/-- The order the source derives for `Quant`. -/
def rank : Quant → Nat
  | None => 0
  | Lone => 1
  | Many => 2

/-- `a <= b` on `Quant`. -/
def fits (a b : Quant) : Bool := decide (a.rank ≤ b.rank)

/-- `Quant::max`. -/
def max (a b : Quant) : Quant := if a.rank ≤ b.rank then b else a

/-- `Quant::add`. -/
def add : Quant → Quant → Quant
  | None, q => q
  | q, None => q
  | _, _ => Many

/-- `Quant::demand`. -/
def demand (self outer : Quant) : Quant :=
  match self with
  | None => None
  | _ => outer

/-- `Quant::product`. -/
def product (self other : Quant) : Quant :=
  match self with
  | None => None
  | Lone => other
  | Many => other.add other

end Quant

/-! ## 2. Terms and declarations -/

/-- `struct Binder`, over the type of terms. -/
structure Binder (T : Type) where
  quant : Quant
  name : String
  id : Nat
  ty : T

/-- `struct LetBinding`, over the type of terms. -/
structure LetBinding (T : Type) where
  quant : Quant
  name : String
  id : Nat
  value : T

/-- `enum Term`. -/
inductive Term where
  | Var (name : String) (id : Nat)
  | Ref (name : String)
  | GpuRef (name : String)
  | Typ (g : Term)
  | Qnt
  | Qua (q : Quant)
  | Min (a b : Term)
  | All (quant : Quant) (name : String) (id : Nat) (domain body : Term)
  | Lam (name : String) (id : Nat) (body : Term)
  | App (f x : Term)
  | Adt (name : String) (args : List Term) (excluded : List String)
  | Ctr (name : String) (args : List Term)
  | Mat (constructor : String) (arm fallback : Term)
  | Efq
  | Eql (left right ty : Term)
  | Rfl
  | Rwt (evidence motive body : Term)
  | Hole (name : String)
  | Ann (value ty : Term)
  | Let (bindings : List (LetBinding Term)) (body : Term)

/-- `struct ConstructorDecl`. -/
structure ConstructorDecl where
  name : String
  fields : List (Binder Term)

/-- `struct AdtDecl`. -/
structure AdtDecl where
  name : String
  parameters : List (Binder Term)
  kind : Term
  constructors : List ConstructorDecl

/-- `struct DefDecl`. -/
structure DefDecl where
  name : String
  parameters : List (Binder Term)
  completionParameters : Option (List (String × Nat))
  ty : Term
  body : Option Term
  unsafe_ : Bool
  foreign : Bool

namespace Term

/-- **Induction over terms**, with the hypotheses for lists as statements about their members. -/
@[elab_as_elim, induction_eliminator]
theorem induct {motive : Term → Prop}
    (Var : ∀ name id, motive (Var name id))
    (Ref : ∀ name, motive (Ref name))
    (GpuRef : ∀ name, motive (GpuRef name))
    (Typ : ∀ g, motive g → motive (Typ g))
    (Qnt : motive Qnt)
    (Qua : ∀ q, motive (Qua q))
    (Min : ∀ a b, motive a → motive b → motive (Min a b))
    (All : ∀ quant name id domain body, motive domain → motive body →
      motive (All quant name id domain body))
    (Lam : ∀ name id body, motive body → motive (Lam name id body))
    (App : ∀ f x, motive f → motive x → motive (App f x))
    (Adt : ∀ name args excluded, (∀ a ∈ args, motive a) → motive (Adt name args excluded))
    (Ctr : ∀ name args, (∀ a ∈ args, motive a) → motive (Ctr name args))
    (Mat : ∀ constructor arm fallback, motive arm → motive fallback →
      motive (Mat constructor arm fallback))
    (Efq : motive Efq)
    (Eql : ∀ left right ty, motive left → motive right → motive ty → motive (Eql left right ty))
    (Rfl : motive Rfl)
    (Rwt : ∀ evidence motive' body, motive evidence → motive motive' → motive body →
      motive (Rwt evidence motive' body))
    (Hole : ∀ name, motive (Hole name))
    (Ann : ∀ value ty, motive value → motive ty → motive (Ann value ty))
    (Let : ∀ bindings body, (∀ b ∈ bindings, motive b.value) → motive body →
      motive (Let bindings body)) (t : Term) : motive t :=
  @Term.rec motive (fun args => ∀ a ∈ args, motive a)
    (fun bindings => ∀ b ∈ bindings, motive b.value) (fun b => motive b.value)
    Var Ref GpuRef Typ Qnt Qua Min All Lam App Adt Ctr Mat Efq Eql Rfl Rwt Hole Ann Let
    (by simp) (fun _ _ h hs => by simpa using ⟨h, hs⟩)
    (by simp) (fun _ _ h hs => by simpa using ⟨h, hs⟩) (fun _ _ _ _ h => h) t

end Term

/-! ## 3. Substitution -/

mutual

/-- `substitute`. -/
def substitute (target : Nat) (replacement : Term) : Term → Term
  | .Var name id => if id = target then replacement else .Var name id
  | .Typ g => .Typ (substitute target replacement g)
  | .Min a b => .Min (substitute target replacement a) (substitute target replacement b)
  | .All quant name id domain body =>
    .All quant name id (substitute target replacement domain)
      (if id = target then body else substitute target replacement body)
  | .Lam name id body =>
    .Lam name id (if id = target then body else substitute target replacement body)
  | .App f x => .App (substitute target replacement f) (substitute target replacement x)
  | .Adt name args excluded => .Adt name (substituteArgs target replacement args) excluded
  | .Ctr name args => .Ctr name (substituteArgs target replacement args)
  | .Mat constructor arm fallback =>
    .Mat constructor (substitute target replacement arm) (substitute target replacement fallback)
  | .Eql left right ty =>
    .Eql (substitute target replacement left) (substitute target replacement right)
      (substitute target replacement ty)
  | .Rwt evidence motive body =>
    .Rwt (substitute target replacement evidence) (substitute target replacement motive)
      (substitute target replacement body)
  | .Ann value ty => .Ann (substitute target replacement value) (substitute target replacement ty)
  | .Let bindings body =>
    .Let (substituteBindings target replacement bindings)
      (if bindings.any (·.id = target) then body else substitute target replacement body)
  | t => t

/-- `substitute` on an argument list. -/
def substituteArgs (target : Nat) (replacement : Term) : List Term → List Term
  | [] => []
  | a :: args => substitute target replacement a :: substituteArgs target replacement args

/-- `substitute` on the values of a `let`. -/
def substituteBindings (target : Nat) (replacement : Term) :
    List (LetBinding Term) → List (LetBinding Term)
  | [] => []
  | ⟨quant, name, id, value⟩ :: bindings =>
    ⟨quant, name, id, substitute target replacement value⟩ ::
      substituteBindings target replacement bindings

end

attribute [local simp] substitute substituteArgs substituteBindings

@[simp] theorem substituteArgs_eq (target : Nat) (replacement : Term) (args : List Term) :
    substituteArgs target replacement args = args.map (substitute target replacement) := by
  induction args with
  | nil => rfl
  | cons a args ih => simp [substituteArgs, ih]

@[simp] theorem substituteBindings_eq (target : Nat) (replacement : Term)
    (bindings : List (LetBinding Term)) :
    substituteBindings target replacement bindings =
      bindings.map fun b => { b with value := substitute target replacement b.value } := by
  induction bindings with
  | nil => rfl
  | cons b bindings ih => simp [substituteBindings, ih]

/-- What a `let` becomes: its values replace its names, one binding after the other. -/
def expand (bindings : List (LetBinding Term)) (body : Term) : Term :=
  bindings.foldl (fun result b => substitute b.id b.value result) body

/-! ## 4. Spines and telescopes -/

/-- `spine`, with the arguments found so far. -/
def spineGo : Term → List Term → Term × List Term
  | .App f x, args => spineGo f (x :: args)
  | head, args => (head, args)

/-- `spine`. -/
def spine (value : Term) : Term × List Term := spineGo value []

/-- `apply` to one argument. -/
def applyOne (f x : Term) : Term :=
  match f with
  | .Lam _ id body => substitute id x body
  | _ => .App f x

/-- `apply`. -/
def apply (f : Term) (args : List Term) : Term := args.foldl applyOne f

/-- `arrows`. -/
def arrows (binders : List (Binder Term)) (result : Term) : Term :=
  binders.foldr (fun b result => .All b.quant b.name b.id b.ty result) result

/-- `lambdas`. -/
def lambdas (binders : List (Binder Term)) (body : Term) : Term :=
  binders.foldr (fun b body => .Lam b.name b.id body) body

end TeamyBend.Kernel
