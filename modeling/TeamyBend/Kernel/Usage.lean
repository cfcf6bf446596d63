/-
# Quantity accounting

The uses that the checker returns, against the occurrences of the term it read.

`Infers` and `Checks` say how a live term is read: which positions are live, under which quantity
each lambda and `let` binds, and where paths part.  They follow the quantities of the types that the
kernel itself finds, and keep of the term a tree of occurrences.  A lambda that is applied on the
spot has no type of its own: inference contracts it first, so the tree is the tree of what it
contracts to, and an argument counts as often as the body uses it.

`check_reads` relates the two: the uses of an accepted term are the maximum of its occurrences over
all paths, and every binder permits what its scope uses.
-/
import TeamyBend.Kernel.Coverage
import TeamyBend.Kernel.Names
import TeamyBend.Library.Occurrences

namespace TeamyBend.Kernel

open TeamyBend.Library

/-! ## 1. Quantities as numbers -/

namespace Quant

/-- The quantity that stands for a number of occurrences. -/
def ofCount : Nat → Quant
  | 0 => None
  | 1 => Lone
  | _ => Many

/-- The numbers of occurrences that a binder permits. -/
def Permits : Quant → Nat → Prop
  | None, n => n = 0
  | Lone, n => n ≤ 1
  | Many, _ => True

theorem ofCount_add (m n : Nat) : ofCount (m + n) = (ofCount m).add (ofCount n) := by
  rcases m with _ | _ | m <;> rcases n with _ | _ | n <;>
    simp [ofCount, add, Nat.add_assoc, Nat.add_comm 1]

theorem ofCount_max (m n : Nat) : ofCount (Nat.max m n) = (ofCount m).max (ofCount n) := by
  rcases m with _ | _ | m <;> rcases n with _ | _ | n <;> simp [ofCount, max, rank]

theorem permits_of_fits {n : Nat} {q : Quant} (h : (ofCount n).fits q) : q.Permits n := by
  rcases n with _ | _ | n <;> cases q <;> simp_all [ofCount, fits, rank, Permits]

theorem Permits.down {q : Quant} {m n : Nat} (hmn : m ≤ n) (h : q.Permits n) : q.Permits m := by
  cases q with
  | None => exact Nat.le_zero.mp (h ▸ hmn)
  | Lone => exact Nat.le_trans hmn h
  | Many => trivial

end Quant

/-- The occurrences of a term, its scopes labelled by the quantity of the binder. -/
abbrev Reading := Occurrences Nat Quant

/-- The scopes of a `let`, the first binding innermost. -/
def scopes (binders : List (Quant × Nat)) (t : Reading) : Reading :=
  binders.foldl (fun t b => .scope b.1 b.2 t) t

/-! ## 2. How live terms are read -/

/-- A run from an engine that extends `e` gives this result. -/
def Reached {α : Type} (e : Engine) (m : M α) (a : α) : Prop :=
  ∃ e₁ e₂, e.Extends e₁ ∧ Returns m e₁ a e₂

/-- The kernel reduces the term to this head. -/
def Reduces (e : Engine) (t v : Term) : Prop := ∃ gas, Reached e (whnf gas t) v

/-- The kernel infers this type for the term. -/
def HasType (e : Engine) (Γ : Context) (t ty : Term) : Prop :=
  ∃ gas lhs demand arguments u, Reached e (infer gas lhs t demand Γ arguments) (ty, u)

/-- No variable of the term is live: it is a name, a type or a quantity. -/
def isInert : Term → Bool
  | .Ref _ | .GpuRef _ | .Typ _ | .Qnt | .Qua _ | .All .. | .Eql .. => true
  | _ => false

mutual

/-- How inference reads a live term. -/
inductive Infers : Engine → Context → Term → Reading → Prop where
  | var {e : Engine} {Γ : Context} {name : String} {id : Nat} {b : Binder Term}
      (h : Γ.get id = some b) : Infers e Γ (.Var name id) (.var id)
  | inert {e : Engine} {Γ : Context} {value : Term} (h : isInert value) : Infers e Γ value .leaf
  | min {e : Engine} {Γ : Context} {a b : Term} {s t : Reading} (ha : Checks e Γ a .Qnt s)
      (hb : Checks e Γ b .Qnt t) : Infers e Γ (.Min a b) (.both s t)
  | redex {e : Engine} {Γ : Context} {name : String} {id : Nat} {body x : Term} {t : Reading}
      (h : Infers e Γ (substitute id x body) t) : Infers e Γ (.App (.Lam name id body) x) t
  | app {e : Engine} {Γ : Context} {f x ty domain body : Term} {quant : Quant} {y : String}
      {id : Nat} {s t : Reading} (hlam : ∀ name id body, f ≠ .Lam name id body)
      (hf : Infers e Γ f s) (hty : HasType e Γ f ty)
      (hall : Reduces e ty (.All quant y id domain body)) (hx : Passed e Γ quant x domain t) :
      Infers e Γ (.App f x) (.both s t)
  | adt {e : Engine} {Γ : Context} {name : String} {args : List Term} {excluded : List String}
      {decl : AdtDecl} {t : Reading} (hdecl : e.adts name = some decl)
      (h : Arguments e Γ (arrows decl.parameters decl.kind) args t) :
      Infers e Γ (.Adt name args excluded) t
  | ann {e : Engine} {Γ : Context} {x ty : Term} {t : Reading} (h : Checks e Γ x ty t) :
      Infers e Γ (.Ann x ty) t

/-- How a live term is read against a type. -/
inductive Checks : Engine → Context → Term → Term → Reading → Prop where
  | lam {e : Engine} {Γ : Context} {name y : String} {id tid x : Nat}
      {body ty domain codomain : Term} {quant : Quant} {t : Reading}
      (hall : Reduces e ty (.All quant y tid domain codomain)) (hfree : ¬FreeIn x body)
      (hbound : ¬BoundIn x body)
      (h : Checks e (Γ.insert ⟨quant, name, x, domain⟩) (substitute id (.Var name x) body)
        (substitute tid (.Var name x) codomain) t) :
      Checks e Γ (.Lam name id body) ty (.scope quant x t)
  | bind {e : Engine} {Γ next : Context} {bindings : List (LetBinding Term)} {body ty : Term}
      {s t : Reading} (hs : Values e Γ bindings Γ next s)
      (h : Checks { e with aliases := insertAliases bindings e.aliases } next body ty t) :
      Checks e Γ (.Let bindings body) ty
        (.both s (scopes (bindings.map fun b => (b.quant, b.id)) t))
  | ctr {e : Engine} {Γ : Context} {name family : String} {args parameters : List Term}
      {excluded : List String} {ty : Term} {decl : AdtDecl} {ctr : ConstructorDecl} {t : Reading}
      (hty : Reduces e ty (.Adt family parameters excluded)) (hdecl : e.adts family = some decl)
      (hctr : (decl.retain excluded).constructors.find? (·.name = name) = some ctr)
      (h : Arguments e Γ (arrows (fieldsOf (decl.retain excluded) ctr parameters)
        (.Adt family parameters excluded)) args t) : Checks e Γ (.Ctr name args) ty t
  | mat {e : Engine} {Γ : Context} {c family x : String} {arm fallback ty domain body : Term}
      {quant : Quant} {id : Nat} {args : List Term} {excluded : List String} {decl : AdtDecl}
      {ctr : ConstructorDecl} {fields : List (Binder Term) × List Term} {s t : Reading}
      (hall : Reduces e ty (.All quant x id domain body))
      (hdomain : Reduces e domain (.Adt family args excluded)) (hdecl : e.adts family = some decl)
      (hctr : (decl.retain excluded).constructors.find? (·.name = c) = some ctr)
      (hfields : Reached e (freshFields quant (fieldsOf (decl.retain excluded) ctr args) []) fields)
      (ha : Checks e Γ arm (arrows fields.1 (substitute id (.Ctr c fields.2) body)) s)
      (hf : Checks e Γ fallback (.All quant x id (.Adt family args (excluded ++ [c])) body) t) :
      Checks e Γ (.Mat c arm fallback) ty (.choice s t)
  | efq {e : Engine} {Γ : Context} {ty : Term} : Checks e Γ .Efq ty .leaf
  | rfl {e : Engine} {Γ : Context} {ty : Term} : Checks e Γ .Rfl ty .leaf
  | rwt {e : Engine} {Γ : Context} {evidence motive body ty evidenceTy left right domain : Term}
      {s t : Reading} (he : Infers e Γ evidence s) (hty : HasType e Γ evidence evidenceTy)
      (heql : Reduces e evidenceTy (.Eql left right domain))
      (hb : Checks e Γ body (apply motive [left, .Rfl]) t) :
      Checks e Γ (.Rwt evidence motive body) ty (.both s t)
  | switch {e : Engine} {Γ : Context} {value ty : Term} {t : Reading} (h : Infers e Γ value t) :
      Checks e Γ value ty t

/-- A term that is passed at a quantity: erased, or live. -/
inductive Passed : Engine → Context → Quant → Term → Term → Reading → Prop where
  | dead {e : Engine} {Γ : Context} {value ty : Term} : Passed e Γ .None value ty .leaf
  | live {e : Engine} {Γ : Context} {quant : Quant} {value ty : Term} {t : Reading}
      (hquant : quant ≠ .None) (h : Checks e Γ value ty t) : Passed e Γ quant value ty t

/-- The arguments of a datatype or constructor, along a telescope. -/
inductive Arguments : Engine → Context → Term → List Term → Reading → Prop where
  | nil {e : Engine} {Γ : Context} {telescope : Term} : Arguments e Γ telescope [] .leaf
  | cons {e : Engine} {Γ : Context} {telescope domain body arg : Term} {args : List Term}
      {quant : Quant} {y : String} {id : Nat} {s t : Reading}
      (hall : Reduces e telescope (.All quant y id domain body))
      (h : Passed e Γ quant arg domain s) (hs : Arguments e Γ (substitute id arg body) args t) :
      Arguments e Γ telescope (arg :: args) (.both s t)

/-- The values of a `let`, each in the outer context, and the context of its body. -/
inductive Values :
    Engine → Context → List (LetBinding Term) → Context → Context → Reading → Prop where
  | nil {e : Engine} {Γ next : Context} : Values e Γ [] next next .leaf
  | dead {e : Engine} {Γ next last : Context} {b : LetBinding Term}
      {bindings : List (LetBinding Term)} {ty : Term} {t : Reading} (hquant : b.quant = .None)
      (hty : HasType e Γ b.value ty)
      (hs : Values e Γ bindings (next.insert ⟨b.quant, b.name, b.id, ty⟩) last t) :
      Values e Γ (b :: bindings) next last (.both .leaf t)
  | live {e : Engine} {Γ next last : Context} {b : LetBinding Term}
      {bindings : List (LetBinding Term)} {ty : Term} {s t : Reading} (hquant : b.quant ≠ .None)
      (hty : HasType e Γ b.value ty) (h : Infers e Γ b.value s)
      (hs : Values e Γ bindings (next.insert ⟨b.quant, b.name, b.id, ty⟩) last t) :
      Values e Γ (b :: bindings) next last (.both s t)

end

/-! ### Live names -/

/-- A name that live code may use: a datatype, the definition that is being checked, a definition
with a body, or a contract. -/
def Engine.Settled (e : Engine) (self name : String) : Prop :=
  (∃ adt, e.adts name = some adt) ∨ name = self ∨
    (∃ definition body, e.defs name = some definition ∧ definition.body = some body) ∨
    e.foreignContracts name ∨ e.numericContracts name ∨ e.opaqueContracts name

/-- No name and no variable of the term is live: it is a type or a quantity. -/
def isType : Term → Bool
  | .Typ _ | .Qnt | .Qua _ | .All .. | .Eql .. => true
  | _ => false

mutual

/-- `Infers`, where every live name satisfies `P`. -/
inductive InfersBy (P : String → Prop) : Engine → Context → Term → Reading → Prop where
  | var {e : Engine} {Γ : Context} {name : String} {id : Nat} {b : Binder Term}
      (h : Γ.get id = some b) : InfersBy P e Γ (.Var name id) (.var id)
  | ref {e : Engine} {Γ : Context} {name : String} (h : P name) : InfersBy P e Γ (.Ref name) .leaf
  | gpuRef {e : Engine} {Γ : Context} {name : String} (h : P name) :
      InfersBy P e Γ (.GpuRef name) .leaf
  | type {e : Engine} {Γ : Context} {value : Term} (h : isType value) : InfersBy P e Γ value .leaf
  | min {e : Engine} {Γ : Context} {a b : Term} {s t : Reading} (ha : ChecksBy P e Γ a .Qnt s)
      (hb : ChecksBy P e Γ b .Qnt t) : InfersBy P e Γ (.Min a b) (.both s t)
  | redex {e : Engine} {Γ : Context} {name : String} {id : Nat} {body x : Term} {t : Reading}
      (h : InfersBy P e Γ (substitute id x body) t) :
      InfersBy P e Γ (.App (.Lam name id body) x) t
  | app {e : Engine} {Γ : Context} {f x ty domain body : Term} {quant : Quant} {y : String}
      {id : Nat} {s t : Reading} (hlam : ∀ name id body, f ≠ .Lam name id body)
      (hf : InfersBy P e Γ f s) (hty : HasType e Γ f ty)
      (hall : Reduces e ty (.All quant y id domain body)) (hx : PassedBy P e Γ quant x domain t) :
      InfersBy P e Γ (.App f x) (.both s t)
  | adt {e : Engine} {Γ : Context} {name : String} {args : List Term} {excluded : List String}
      {decl : AdtDecl} {t : Reading} (hdecl : e.adts name = some decl)
      (h : ArgumentsBy P e Γ (arrows decl.parameters decl.kind) args t) :
      InfersBy P e Γ (.Adt name args excluded) t
  | ann {e : Engine} {Γ : Context} {x ty : Term} {t : Reading} (h : ChecksBy P e Γ x ty t) :
      InfersBy P e Γ (.Ann x ty) t

/-- `Checks`, where every live name satisfies `P`. -/
inductive ChecksBy (P : String → Prop) : Engine → Context → Term → Term → Reading → Prop where
  | lam {e : Engine} {Γ : Context} {name y : String} {id tid x : Nat}
      {body ty domain codomain : Term} {quant : Quant} {t : Reading}
      (hall : Reduces e ty (.All quant y tid domain codomain)) (hfree : ¬FreeIn x body)
      (hbound : ¬BoundIn x body)
      (h : ChecksBy P e (Γ.insert ⟨quant, name, x, domain⟩) (substitute id (.Var name x) body)
        (substitute tid (.Var name x) codomain) t) :
      ChecksBy P e Γ (.Lam name id body) ty (.scope quant x t)
  | bind {e : Engine} {Γ next : Context} {bindings : List (LetBinding Term)} {body ty : Term}
      {s t : Reading} (hs : ValuesBy P e Γ bindings Γ next s)
      (h : ChecksBy P { e with aliases := insertAliases bindings e.aliases } next body ty t) :
      ChecksBy P e Γ (.Let bindings body) ty
        (.both s (scopes (bindings.map fun b => (b.quant, b.id)) t))
  | ctr {e : Engine} {Γ : Context} {name family : String} {args parameters : List Term}
      {excluded : List String} {ty : Term} {decl : AdtDecl} {ctr : ConstructorDecl} {t : Reading}
      (hty : Reduces e ty (.Adt family parameters excluded)) (hdecl : e.adts family = some decl)
      (hctr : (decl.retain excluded).constructors.find? (·.name = name) = some ctr)
      (h : ArgumentsBy P e Γ (arrows (fieldsOf (decl.retain excluded) ctr parameters)
        (.Adt family parameters excluded)) args t) : ChecksBy P e Γ (.Ctr name args) ty t
  | mat {e : Engine} {Γ : Context} {c family x : String} {arm fallback ty domain body : Term}
      {quant : Quant} {id : Nat} {args : List Term} {excluded : List String} {decl : AdtDecl}
      {ctr : ConstructorDecl} {fields : List (Binder Term) × List Term} {s t : Reading}
      (hall : Reduces e ty (.All quant x id domain body))
      (hdomain : Reduces e domain (.Adt family args excluded)) (hdecl : e.adts family = some decl)
      (hctr : (decl.retain excluded).constructors.find? (·.name = c) = some ctr)
      (hfields : Reached e (freshFields quant (fieldsOf (decl.retain excluded) ctr args) []) fields)
      (ha : ChecksBy P e Γ arm (arrows fields.1 (substitute id (.Ctr c fields.2) body)) s)
      (hf : ChecksBy P e Γ fallback (.All quant x id (.Adt family args (excluded ++ [c])) body) t) :
      ChecksBy P e Γ (.Mat c arm fallback) ty (.choice s t)
  | efq {e : Engine} {Γ : Context} {ty : Term} : ChecksBy P e Γ .Efq ty .leaf
  | rfl {e : Engine} {Γ : Context} {ty : Term} : ChecksBy P e Γ .Rfl ty .leaf
  | rwt {e : Engine} {Γ : Context} {evidence motive body ty evidenceTy left right domain : Term}
      {s t : Reading} (he : InfersBy P e Γ evidence s) (hty : HasType e Γ evidence evidenceTy)
      (heql : Reduces e evidenceTy (.Eql left right domain))
      (hb : ChecksBy P e Γ body (apply motive [left, .Rfl]) t) :
      ChecksBy P e Γ (.Rwt evidence motive body) ty (.both s t)
  | switch {e : Engine} {Γ : Context} {value ty : Term} {t : Reading}
      (h : InfersBy P e Γ value t) : ChecksBy P e Γ value ty t

/-- `Passed`, where every live name satisfies `P`. -/
inductive PassedBy (P : String → Prop) :
    Engine → Context → Quant → Term → Term → Reading → Prop where
  | dead {e : Engine} {Γ : Context} {value ty : Term} : PassedBy P e Γ .None value ty .leaf
  | live {e : Engine} {Γ : Context} {quant : Quant} {value ty : Term} {t : Reading}
      (hquant : quant ≠ .None) (h : ChecksBy P e Γ value ty t) : PassedBy P e Γ quant value ty t

/-- `Arguments`, where every live name satisfies `P`. -/
inductive ArgumentsBy (P : String → Prop) :
    Engine → Context → Term → List Term → Reading → Prop where
  | nil {e : Engine} {Γ : Context} {telescope : Term} : ArgumentsBy P e Γ telescope [] .leaf
  | cons {e : Engine} {Γ : Context} {telescope domain body arg : Term} {args : List Term}
      {quant : Quant} {y : String} {id : Nat} {s t : Reading}
      (hall : Reduces e telescope (.All quant y id domain body))
      (h : PassedBy P e Γ quant arg domain s)
      (hs : ArgumentsBy P e Γ (substitute id arg body) args t) :
      ArgumentsBy P e Γ telescope (arg :: args) (.both s t)

/-- `Values`, where every live name satisfies `P`. -/
inductive ValuesBy (P : String → Prop) :
    Engine → Context → List (LetBinding Term) → Context → Context → Reading → Prop where
  | nil {e : Engine} {Γ next : Context} : ValuesBy P e Γ [] next next .leaf
  | dead {e : Engine} {Γ next last : Context} {b : LetBinding Term}
      {bindings : List (LetBinding Term)} {ty : Term} {t : Reading} (hquant : b.quant = .None)
      (hty : HasType e Γ b.value ty)
      (hs : ValuesBy P e Γ bindings (next.insert ⟨b.quant, b.name, b.id, ty⟩) last t) :
      ValuesBy P e Γ (b :: bindings) next last (.both .leaf t)
  | live {e : Engine} {Γ next last : Context} {b : LetBinding Term}
      {bindings : List (LetBinding Term)} {ty : Term} {s t : Reading} (hquant : b.quant ≠ .None)
      (hty : HasType e Γ b.value ty) (h : InfersBy P e Γ b.value s)
      (hs : ValuesBy P e Γ bindings (next.insert ⟨b.quant, b.name, b.id, ty⟩) last t) :
      ValuesBy P e Γ (b :: bindings) next last (.both s t)

end

section Names

variable {P : String → Prop} {e : Engine} {Γ : Context} {value : Term} {t : Reading}

theorem isInert_of_isType (h : isType value) : isInert value := by
  cases value <;> simp_all [isType, isInert]

/-- The names are only watched. -/
theorem InfersBy.infers (h : InfersBy P e Γ value t) : Infers e Γ value t := by
  refine @InfersBy.rec P (fun e Γ value t _ => Infers e Γ value t)
    (fun e Γ value ty t _ => Checks e Γ value ty t)
    (fun e Γ quant value ty t _ => Passed e Γ quant value ty t)
    (fun e Γ telescope args t _ => Arguments e Γ telescope args t)
    (fun e Γ bindings next last t _ => Values e Γ bindings next last t)
    ?var ?ref ?gpuRef ?type ?min ?redex ?app ?adt ?ann ?lam ?bind ?ctr ?mat ?efq ?rfl ?rwt ?switch
    ?dead ?live ?noArgs ?arg ?noValue ?deadValue ?liveValue e Γ value t h
  case var => exact fun hb => .var hb
  case ref => exact fun _ => .inert (Eq.refl true)
  case gpuRef => exact fun _ => .inert (Eq.refl true)
  case type => exact fun h => .inert (isInert_of_isType h)
  case min => exact fun _ _ ha hb => .min ha hb
  case redex => exact fun _ h => .redex h
  case app => exact fun hlam _ hty hall _ hf hx => .app hlam hf hty hall hx
  case adt => exact fun hdecl _ h => .adt hdecl h
  case ann => exact fun _ h => .ann h
  case lam => exact fun hall hfree hbound _ h => .lam hall hfree hbound h
  case bind => exact fun _ _ hs h => .bind hs h
  case ctr => exact fun hty hdecl hctr _ h => .ctr hty hdecl hctr h
  case mat =>
    exact fun hall hdomain hdecl hctr hfields _ _ ha hf =>
      .mat hall hdomain hdecl hctr hfields ha hf
  case efq => exact .efq
  case rfl => exact .rfl
  case rwt => exact fun _ hty heql _ he hb => .rwt he hty heql hb
  case switch => exact fun _ h => .switch h
  case dead => exact .dead
  case live => exact fun hquant _ h => .live hquant h
  case noArgs => exact .nil
  case arg => exact fun hall _ _ h hs => .cons hall h hs
  case noValue => exact .nil
  case deadValue => exact fun hquant hty _ hs => .dead hquant hty hs
  case liveValue => exact fun hquant hty _ _ h hs => .live hquant hty h hs

theorem ChecksBy.checks {ty : Term} (h : ChecksBy P e Γ value ty t) : Checks e Γ value ty t := by
  cases (InfersBy.ann h).infers with
  | inert hinert => cases hinert
  | ann h => exact h

end Names

/-! ## 3. Uses of readings -/

/-- The uses are those of the reading, and every binder of the reading permits its uses. -/
structure Accounts (t : Reading) (u : Uses) : Prop where
  bounded : t.Bounded Quant.Permits
  uses : ∀ id, u id = .ofCount (t.most id)

theorem Accounts.leaf : Accounts .leaf Uses.new := ⟨trivial, fun _ => rfl⟩

/-- A variable uses itself once. -/
theorem Accounts.var (id : Nat) : Accounts (.var id) (usage id .Lone) := by
  refine ⟨trivial, fun x => ?_⟩
  by_cases h : x = id
  · simp [usage, Occurrences.most, h, Quant.ofCount]
  · simp [usage, Occurrences.most, h, Ne.symm h, Quant.ofCount]

theorem Accounts.both {s t : Reading} {u v : Uses} (hs : Accounts s u) (ht : Accounts t v) :
    Accounts (.both s t) (u.add v) := by
  refine ⟨⟨hs.bounded, ht.bounded⟩, fun id => ?_⟩
  rw [Uses.add, hs.uses, ht.uses, Occurrences.most, Quant.ofCount_add]

/-- Branches use what one of them does. -/
theorem Accounts.choice {s t : Reading} {u v : Uses} (hs : Accounts s u) (ht : Accounts t v) :
    Accounts (.choice s t) (u.join v) := by
  refine ⟨⟨hs.bounded, ht.bounded⟩, fun id => ?_⟩
  rw [Uses.join, hs.uses, ht.uses, Occurrences.most]
  exact (Quant.ofCount_max _ _).symm

/-- **A binder that passes `check_usage`** closes a scope that it permits. -/
theorem Accounts.scope {t : Reading} {u v : Uses} {b : Binder Term} {e e' : Engine}
    (h : Returns (checkUsage b u) e v e') (ht : Accounts t u) :
    Accounts (.scope b.quant b.id t) v := by
  rw [checkUsage, returns_ite] at h
  split at h
  · rename_i hfits
    obtain ⟨rfl, -⟩ := returns_pure.mp h
    rw [ht.uses] at hfits
    refine ⟨Occurrences.bounded_scope Quant.Permits (fun _ _ _ => Quant.Permits.down)
      (Quant.permits_of_fits hfits) ht.bounded, fun id => ?_⟩
    by_cases hid : id = b.id
    · simp [Uses.remove, Occurrences.most, hid, Quant.ofCount]
    · simp [Uses.remove, Occurrences.most, hid, Ne.symm hid, ht.uses]
  · exact (returns_fail h).elim

/-- Binders that are checked are used as they promise, and then removed. -/
theorem Accounts.scopes {binders : List (Binder Term)} {t : Reading} {u v : Uses} {e e' : Engine}
    (h : Returns (checkUsages binders u) e v e') (ht : Accounts t u) :
    Accounts (Kernel.scopes (binders.map fun b => (b.quant, b.id)) t) v := by
  induction binders generalizing t u e with
  | nil =>
    obtain ⟨rfl, -⟩ := returns_pure.mp h
    exact ht
  | cons b binders ih =>
    rw [checkUsages, returns_bind] at h
    obtain ⟨w, e₁, hb, h⟩ := h
    exact ih h (ht.scope hb)

theorem Uses.add_assoc (u v w : Uses) : (u.add v).add w = u.add (v.add w) := by
  funext id
  simp only [Uses.add]
  cases u id <;> cases v id <;> cases w id <;> rfl

@[simp] theorem Uses.new_add (u : Uses) : Uses.new.add u = u := by
  funext id
  simp [Uses.add, Uses.new, Quant.add]

@[simp] theorem Uses.new_join : Uses.new.join Uses.new = Uses.new := rfl

@[simp] theorem Uses.remove_new (id : Nat) : Uses.new.remove id = Uses.new := by
  funext x
  simp [Uses.remove, Uses.new]

/-! ## 4. Erased positions -/

/-- Every result of the computation is as described. -/
def Ensures {α : Type} (m : M α) (P : α → Prop) : Prop := ∀ e a e', Returns m e a e' → P a

section Ensures

variable {α β : Type}

theorem Ensures.pure {P : α → Prop} {a : α} (h : P a) : Ensures (pure a) P := by
  intro e b e' hrun
  obtain ⟨rfl, -⟩ := returns_pure.mp hrun
  exact h

theorem Ensures.fail {P : α → Prop} {message : String} : Ensures (fail message) P :=
  fun _ _ _ hrun => (returns_fail hrun).elim

theorem Ensures.any {m : M α} : Ensures m fun _ => True := fun _ _ _ _ => trivial

/-- What follows starts from a result of the first part. -/
theorem Ensures.bind {m : M α} {f : α → M β} {P : α → Prop} {Q : β → Prop} (hm : Ensures m P)
    (hf : ∀ a, P a → Ensures (f a) Q) : Ensures (m >>= f) Q := by
  intro e b e' h
  obtain ⟨a, e₁, hma, hfb⟩ := returns_bind.mp h
  exact hf a (hm _ _ _ hma) _ _ _ hfb

/-- A step whose result does not matter. -/
theorem Ensures.after {m : M α} {f : α → M β} {Q : β → Prop} (hf : ∀ a, Ensures (f a) Q) :
    Ensures (m >>= f) Q := Ensures.any.bind fun a _ => hf a

theorem Ensures.ite {c : Prop} [Decidable c] {m n : M α} {P : α → Prop} (hm : Ensures m P)
    (hn : Ensures n P) : Ensures (if c then m else n) P := by
  split
  · exact hm
  · exact hn

theorem Ensures.charged {m : M α} {P : α → Prop} (hm : Ensures m P) : Ensures (charged m) P :=
  .after fun _ => .after fun _ e a e' h => by
    obtain ⟨e₁, hma, -⟩ := returns_ensuring.mp h
    exact hm e a e₁ hma

theorem Ensures.showing {P : α → Prop} {before : String} {value : Term} :
    Ensures (failShowing before value) P := .after fun _ => .fail

theorem Ensures.mismatch {P : α → Prop} {expected observed : Term} :
    Ensures (mismatch expected observed) P := .after fun _ => .fail

end Ensures

@[simp] theorem Quant.demand_none (q : Quant) : q.demand .None = .None := by cases q <;> rfl

/-- At the demand `None` both calls use nothing. -/
structure Rules.Silent (rules : Rules) : Prop where
  infer : ∀ lhs value Γ arguments,
    Ensures (rules.infer lhs value .None Γ arguments) fun r => r.2 = Uses.new
  check : ∀ lhs value ty Γ, Ensures (rules.check lhs value .None ty Γ) (· = Uses.new)

section Silent

variable {rules : Rules} (h : rules.Silent)

/-- A reference uses no variable. -/
theorem silent_inferReference (gas : Nat) (lhs : Lhs) (name : String) (demand : Quant)
    (args : List Term) :
    Ensures (inferReference gas lhs name demand args) fun r => r.2 = Uses.new := by
  refine .after fun e => ?_
  split
  · exact .ite .fail (.pure rfl)
  · split
    · exact .fail
    · exact .ite (.after fun _ => .ite .fail (.pure rfl)) (.pure rfl)

theorem silent_checkUsage (b : Binder Term) :
    Ensures (checkUsage b Uses.new) (· = Uses.new) :=
  .ite (.pure (Uses.remove_new _)) .fail

/-- Binders that are not used leave no uses. -/
theorem silent_checkUsages (binders : List (Binder Term)) :
    Ensures (checkUsages binders Uses.new) (· = Uses.new) := by
  induction binders with
  | nil => exact .pure rfl
  | cons b binders ih =>
    refine (silent_checkUsage b).bind fun u hu => ?_
    subst hu
    exact ih

theorem silent_checkRfl (gas : Nat) (ty : Term) : Ensures (checkRfl gas ty) (· = Uses.new) := by
  refine .after fun t => ?_
  split
  · exact .after fun _ => .ite (.pure rfl) (.after fun _ => .fail)
  · exact .mismatch

include h

/-- **Erased arguments use nothing.** -/
theorem silent_checkArguments (gas : Nat) (lhs : Lhs) (Γ : Context) (telescope : Term)
    (args : List Term) :
    Ensures (checkArguments gas rules lhs .None Γ telescope Uses.new args)
      fun r => r.2 = Uses.new := by
  induction args generalizing telescope with
  | nil => exact .pure rfl
  | cons arg args ih =>
    refine .after fun t => ?_
    split
    · rw [Quant.demand_none]
      refine (h.check _ _ _ _).bind fun u hu => ?_
      subst hu
      exact ih _
    · exact .fail

/-- An erased application uses nothing. -/
theorem silent_inferApp (gas : Nat) (lhs : Lhs) (f x : Term) (Γ : Context)
    (arguments : List Term) :
    Ensures (inferApp gas rules lhs f x .None Γ arguments) fun r => r.2 = Uses.new := by
  refine (h.infer _ _ _ _).bind fun function hf => .after fun t => ?_
  split
  · rw [Quant.demand_none]
    refine (h.check _ _ _ _).bind fun u hu => .pure ?_
    rw [hf, hu, Uses.new_add]
  · exact .showing

/-- Nor does any other term that is inferred for nothing. -/
theorem silent_inferInner (gas : Nat) (lhs : Lhs) (value : Term) (Γ : Context)
    (arguments : List Term) :
    Ensures (inferInner gas rules lhs value .None Γ arguments) fun r => r.2 = Uses.new := by
  unfold inferInner
  split
  · split
    · refine .pure (funext fun x => ?_)
      simp [usage, Uses.new]
    · exact .showing
  · exact silent_inferReference _ _ _ _ _
  · exact silent_inferReference _ _ _ _ _
  · exact .after fun _ => .pure rfl
  · exact .pure rfl
  · exact .pure rfl
  · refine (h.check _ _ _ _).bind fun u hu => (h.check _ _ _ _).bind fun v hv => .pure ?_
    rw [hu, hv, Uses.new_add]
  · exact .after fun _ => .ite .fail (.after fun _ => .pure rfl)
  · exact h.infer _ _ _ _
  · exact silent_inferApp h _ _ _ _ _ _
  · exact .after fun _ => (silent_checkArguments h _ _ _ _ _).bind fun _ hr => .ite .fail (.pure hr)
  · exact .after fun _ => .after fun _ => .after fun _ => .pure rfl
  · exact .after fun _ => (h.check _ _ _ _).bind fun _ hu => .pure hu
  · exact .fail
  · exact .showing

/-- The values of an erased `let` use nothing. -/
theorem silent_letBindings (lhs : Lhs) (Γ : Context) (bindings : List (LetBinding Term))
    (next : Context) :
    Ensures (letBindings rules lhs .None Γ bindings next Uses.new)
      fun r => r.2.2 = Uses.new := by
  induction bindings generalizing next with
  | nil => exact .pure rfl
  | cons b bindings ih =>
    refine .ite .fail ?_
    rw [Quant.demand_none]
    refine (h.infer _ _ _ _).bind fun value hv => .after fun _ => ?_
    rw [hv, Uses.new_add]
    exact (ih _).bind fun _ hr => .pure hr

/-- Nor does an erased match. -/
theorem silent_checkMatch (gas : Nat) (lhs : Lhs) (value ty : Term) (Γ : Context) :
    Ensures (checkMatch gas rules lhs value .None ty Γ) (· = Uses.new) := by
  refine .after fun t => ?_
  split
  · refine .ite .fail (.after fun dt => .after fun adt => ?_)
    split
    · unfold matchRule
      split
      · unfold checkMat
        split
        · exact .fail
        · refine .after fun _ => (h.check _ _ _ _).bind fun u hu => ?_
          refine (h.check _ _ _ _).bind fun v hv => .pure ?_
          rw [hu, hv, Uses.new_join]
      · exact .ite (.pure rfl) (.after fun _ => .ite (.pure rfl) .fail)
    · exact .showing
  · exact .mismatch

/-- Nor does any other term that is checked for nothing. -/
theorem silent_checkInner (gas : Nat) (lhs : Lhs) (value ty : Term) (Γ : Context) :
    Ensures (checkInner gas rules lhs value .None ty Γ) (· = Uses.new) := by
  unfold checkInner
  split
  · exact .fail
  · refine .after fun t => ?_
    split
    · refine .after fun x => (h.check _ _ _ _).bind fun u hu => ?_
      subst hu
      exact silent_checkUsage _
    · exact .mismatch
  · refine (silent_letBindings h _ _ _ _).bind fun checked hc => .after fun _ => ?_
    refine (h.check _ _ _ _).bind fun u hu => .after fun _ => ?_
    subst hu
    refine (silent_checkUsages _).bind fun v hv => .pure ?_
    rw [hc, hv, Uses.new_add]
  · refine .after fun t => .after fun adt => ?_
    split
    · exact .fail
    · refine .ite .fail ?_
      split
      · exact (silent_checkArguments h _ _ _ _ _).bind fun _ hr => .pure hr
      · exact .showing
  · exact silent_checkMatch h _ _ _ _ _
  · exact silent_checkMatch h _ _ _ _ _
  · exact silent_checkRfl _ _
  · refine (h.infer _ _ _ _).bind fun inferred hi => .after fun t => ?_
    split
    · refine .after fun _ => .after fun _ => .after fun _ => .after fun _ => .ite ?_ .mismatch
      refine (h.check _ _ _ _).bind fun u hu => .pure ?_
      rw [hi, hu, Uses.new_add]
    · exact .fail
  · exact .after fun _ => (silent_inferInner h _ _ _ _ _).bind fun _ hr => .after fun _ =>
      .ite (.pure hr) .mismatch

end Silent

/-- **Erased positions use nothing.** -/
theorem silent_rules (gas : Nat) : (rules gas).Silent := by
  induction gas with
  | zero => exact ⟨fun _ _ _ _ => .fail, fun _ _ _ _ => .fail⟩
  | succ gas ih =>
    exact ⟨fun _ _ _ _ => (silent_inferInner ih _ _ _ _ _).charged,
      fun _ _ _ _ => (silent_checkInner ih _ _ _ _ _).charged⟩

/-! ## 5. Reading what was accepted -/

/-- Both calls read what they accept at a live demand. -/
structure Reads (gas : Nat) : Prop where
  infer : ∀ {lhs : Lhs} {value : Term} {Γ : Context} {arguments : List Term} {e₀ e e' : Engine}
    {r : Term × Uses}, e₀.Extends e → Below e.freshId value →
    Returns ((rules gas).infer lhs value .Lone Γ arguments) e r e' →
      ∃ t, InfersBy (e₀.Settled lhs.name) e₀ Γ value t ∧ Accounts t r.2
  check : ∀ {lhs : Lhs} {value ty : Term} {Γ : Context} {e₀ e e' : Engine} {u : Uses},
    e₀.Extends e → Below e.freshId value →
    Returns ((rules gas).check lhs value .Lone ty Γ) e u e' →
      ∃ t, ChecksBy (e₀.Settled lhs.name) e₀ Γ value ty t ∧ Accounts t u

section Reads

variable {gas : Nat} {lhs : Lhs} {Γ : Context} {e₀ e e' : Engine}

theorem Engine.Extends.reduces {t v : Term} (he : e₀.Extends e) (h : Returns (whnf gas t) e v e') :
    Reduces e₀ t v := ⟨gas, e, e', he, h⟩

/-- Aliases of an inner scope. -/
theorem Engine.Extends.alias (he : e₀.Extends e) (bindings : List (LetBinding Term)) :
    ({ e₀ with aliases := insertAliases bindings e₀.aliases } : Engine).Extends
      { e with aliases := insertAliases bindings e.aliases } := by
  refine ⟨he.defs, he.adts, he.contracts, he.freshId, fun id value hid => ?_⟩
  replace hid : insertAliases bindings e.aliases id = some value := hid
  show insertAliases bindings e₀.aliases id = some value
  by_cases hmem : id ∈ bindings.map (·.id)
  · rw [insertAliases_of_mem hmem _ e.aliases, hid]
  · rw [insertAliases_of_not_mem hmem] at hid ⊢
    exact he.aliases id value hid

/-- **A live reference is settled.** -/
theorem Engine.Extends.settled {name : String} {args : List Term} {r : Term × Uses}
    (he : e₀.Extends e) (h : Returns (inferReference gas lhs name .Lone args) e r e') :
    e₀.Settled lhs.name name := by
  have hcontracts := he.contracts
  simp only [Prod.mk.injEq] at hcontracts
  obtain ⟨hforeign, hnumeric, hopaque⟩ := hcontracts
  rw [Engine.Settled, ← he.adts, ← he.defs, ← hforeign, ← hnumeric, ← hopaque]
  rw [inferReference, returns_bind] at h
  obtain ⟨_, _, hget, h⟩ := h
  obtain ⟨rfl, rfl⟩ := returns_get.mp hget
  split at h
  · rename_i adt hadt
    exact .inl ⟨adt, hadt⟩
  · split at h
    · exact (returns_fail h).elim
    · rename_i definition hdef
      rw [if_pos (by decide), returns_bind] at h
      obtain ⟨-, e₁, -, h⟩ := h
      split at h
      · exact (returns_fail h).elim
      · rename_i hopen
        cases hbody : definition.body with
        | some body => exact .inr (.inr (.inl ⟨definition, body, hdef, hbody⟩))
        | none =>
          rw [hbody] at hopen
          by_cases hself : name = lhs.name
          · exact .inr (.inl hself)
          · by_contra hnot
            simp only [not_or, Bool.not_eq_true] at hnot
            exact hopen ⟨hself, rfl, by simp [hnot.2.2.2]⟩

/-- The type that a call of `infer` found. -/
theorem Engine.Extends.hasType {t : Term} {demand : Quant} {arguments : List Term}
    {r : Term × Uses} (he : e₀.Extends e)
    (h : Returns ((rules gas).infer lhs t demand Γ arguments) e r e') : HasType e₀ Γ t r.1 :=
  ⟨gas, lhs, demand, arguments, r.2, e, e', he, h⟩

/-- A term that is passed at a quantity. -/
theorem Reads.passed (h : Reads gas) {quant : Quant} {value ty : Term} {u : Uses}
    (he : e₀.Extends e) (hbelow : Below e.freshId value)
    (hrun : Returns ((rules gas).check lhs value (quant.demand .Lone) ty Γ) e u e') :
    ∃ t, PassedBy (e₀.Settled lhs.name) e₀ Γ quant value ty t ∧ Accounts t u := by
  by_cases hquant : quant = .None
  · subst hquant
    obtain rfl := (silent_rules gas).check _ _ _ _ _ _ _ hrun
    exact ⟨.leaf, .dead, .leaf⟩
  · have hdemand : quant.demand .Lone = .Lone := by cases quant <;> simp_all [Quant.demand]
    rw [hdemand] at hrun
    obtain ⟨t, ht, hu⟩ := h.check he hbelow hrun
    exact ⟨t, .live hquant ht, hu⟩

/-- **Arguments along a telescope.** -/
theorem Reads.arguments (h : Reads gas) {telescope : Term} {uses : Uses} {args : List Term}
    {r : Term × Uses} (he : e₀.Extends e) (hbelow : ∀ a ∈ args, Below e.freshId a)
    (hrun : Returns (checkArguments gas (rules gas) lhs .Lone Γ telescope uses args) e r e') :
    ∃ t u, ArgumentsBy (e₀.Settled lhs.name) e₀ Γ telescope args t ∧ Accounts t u ∧
      r.2 = uses.add u := by
  induction args generalizing telescope uses e with
  | nil =>
    obtain ⟨rfl, -⟩ := returns_pure.mp hrun
    refine ⟨.leaf, Uses.new, .nil, .leaf, funext fun id => ?_⟩
    simp only [Uses.add, Uses.new]
    cases uses id <;> rfl
  | cons arg args ih =>
    rw [checkArguments, returns_bind] at hrun
    obtain ⟨tel, e₁, htel, hrun⟩ := hrun
    have he₁ := keeps_whnf _ _ _ _ _ htel
    split at hrun
    · simp only [returns_bind] at hrun
      obtain ⟨u, e₂, hu, hrun⟩ := hrun
      have he₂ := he₁.trans ((keep_rules gas).check _ _ _ _ _ _ _ _ hu)
      obtain ⟨s, hs, hsu⟩ := h.passed (he.trans he₁)
        ((hbelow arg (List.mem_cons_self ..)).mono he₁.freshId) hu
      obtain ⟨t, v, ht, htv, hr⟩ := ih (he.trans he₂)
        (fun a ha => (hbelow a (List.mem_cons_of_mem _ ha)).mono he₂.freshId) hrun
      exact ⟨.both s t, u.add v, .cons (he.reduces htel) hs ht, hsu.both htv,
        by rw [hr, Uses.add_assoc]⟩
    · exact (returns_fail hrun).elim

/-- **Applications.** -/
theorem Reads.app (h : Reads gas) {f x : Term} {arguments : List Term} {r : Term × Uses}
    (hlam : ∀ name id body, f ≠ .Lam name id body) (he : e₀.Extends e)
    (hbelow : Below e.freshId (.App f x))
    (hrun : Returns (inferApp gas (rules gas) lhs f x .Lone Γ arguments) e r e') :
    ∃ t, InfersBy (e₀.Settled lhs.name) e₀ Γ (.App f x) t ∧ Accounts t r.2 := by
  rw [inferApp, returns_bind] at hrun
  obtain ⟨function, e₁, hf, hrun⟩ := hrun
  rw [returns_bind] at hrun
  obtain ⟨ft, e₂, hft, hrun⟩ := hrun
  have he₁ := (keep_rules gas).infer _ _ _ _ _ _ _ _ hf
  have he₂ := he₁.trans (keeps_whnf _ _ _ _ _ hft)
  split at hrun
  · simp only [returns_bind, returns_pure] at hrun
    obtain ⟨xu, e₃, hx, rfl, -⟩ := hrun
    obtain ⟨s, hs, hsu⟩ := h.infer he
      (hbelow.part (fun _ => FreeIn.fn) fun _ => BoundIn.fn) hf
    obtain ⟨t, ht, htu⟩ := h.passed (he.trans he₂)
      ((hbelow.part (fun _ => FreeIn.arg) fun _ => BoundIn.arg).mono he₂.freshId) hx
    exact ⟨.both s t, .app hlam hs (he.hasType hf) ((he.trans he₁).reduces hft) ht, hsu.both htu⟩
  · simp [failShowing] at hrun

/-- **The inference rules.** -/
theorem Reads.inferred (h : Reads gas) {value : Term} {arguments : List Term}
    {r : Term × Uses} (he : e₀.Extends e) (hbelow : Below e.freshId value)
    (hrun : Returns (inferInner gas (rules gas) lhs value .Lone Γ arguments) e r e') :
    ∃ t, InfersBy (e₀.Settled lhs.name) e₀ Γ value t ∧ Accounts t r.2 := by
  unfold inferInner at hrun
  split at hrun
  · split at hrun
    · rename_i hb
      obtain ⟨rfl, -⟩ := returns_pure.mp hrun
      exact ⟨_, .var hb, .var _⟩
    · simp [failShowing] at hrun
  · obtain hr := silent_inferReference _ _ _ _ _ _ _ _ hrun
    exact ⟨.leaf, .ref (he.settled hrun), hr ▸ .leaf⟩
  · obtain hr := silent_inferReference _ _ _ _ _ _ _ _ hrun
    exact ⟨.leaf, .gpuRef (he.settled hrun), hr ▸ .leaf⟩
  · simp only [returns_bind, returns_pure] at hrun
    obtain ⟨-, -, -, rfl, -⟩ := hrun
    exact ⟨.leaf, .type rfl, .leaf⟩
  · obtain ⟨rfl, -⟩ := returns_pure.mp hrun
    exact ⟨.leaf, .type rfl, .leaf⟩
  · obtain ⟨rfl, -⟩ := returns_pure.mp hrun
    exact ⟨.leaf, .type rfl, .leaf⟩
  · simp only [returns_bind, returns_pure] at hrun
    obtain ⟨u, e₁, ha, v, e₂, hb, rfl, -⟩ := hrun
    have he₁ := (keep_rules gas).check _ _ _ _ _ _ _ _ ha
    obtain ⟨s, hs, hsu⟩ := h.check he (hbelow.part (fun _ => .minL) fun _ => .minL) ha
    obtain ⟨t, ht, htv⟩ := h.check (he.trans he₁)
      ((hbelow.part (fun _ => .minR) fun _ => .minR).mono he₁.freshId) hb
    exact ⟨.both s t, .min hs ht, hsu.both htv⟩
  · simp only [returns_bind, returns_ite, returns_fail, returns_pure] at hrun
    obtain ⟨-, e₁, -, hrun⟩ := hrun
    split at hrun
    · exact hrun.elim
    · obtain ⟨-, -, -, rfl, -⟩ := hrun
      exact ⟨.leaf, .type rfl, .leaf⟩
  · obtain ⟨t, ht, hu⟩ := h.infer he (Below.substitute
      (hbelow.part (fun _ => FreeIn.fn) fun _ => BoundIn.fn).lam
      (hbelow.part (fun _ => FreeIn.arg) fun _ => BoundIn.arg)) hrun
    exact ⟨t, .redex ht, hu⟩
  · rename_i hlam
    exact h.app (fun name id body => hlam name id body) he hbelow hrun
  · simp only [returns_bind] at hrun
    obtain ⟨adt, e₁, hadt, checked, e₂, hargs, hrun⟩ := hrun
    obtain ⟨decl, hdecl, rfl, rfl⟩ := returns_adtOf hadt
    obtain ⟨t, u, ht, hu, hr⟩ := h.arguments he
      (fun a ha => hbelow.part (fun _ => .adt ha) fun _ => .adt ha) hargs
    rw [returns_ite] at hrun
    split at hrun
    · exact (returns_fail hrun).elim
    · obtain ⟨rfl, -⟩ := returns_pure.mp hrun
      rw [Uses.new_add] at hr
      have hdecl₀ : e₀.adts _ = some decl := he.adts ▸ hdecl
      exact ⟨t, .adt hdecl₀ ht, hr ▸ hu⟩
  · simp only [returns_bind, returns_pure] at hrun
    obtain ⟨-, -, -, -, -, -, -, -, -, rfl, -⟩ := hrun
    exact ⟨.leaf, .type rfl, .leaf⟩
  · simp only [returns_bind, returns_pure] at hrun
    obtain ⟨_, e₁, hty, u, e₂, hx, rfl, -⟩ := hrun
    have he₁ := (keep_rules gas).check _ _ _ _ _ _ _ _ hty
    obtain ⟨t, ht, hu⟩ := h.check (he.trans he₁)
      ((hbelow.part (fun _ => .value) fun _ => .value).mono he₁.freshId) hx
    exact ⟨t, .ann ht, hu⟩
  · exact (returns_fail hrun).elim
  · simp [failShowing] at hrun

/-- **Lambdas.** -/
theorem Reads.lam (h : Reads gas) {name : String} {id : Nat} {body ty : Term} {u : Uses}
    (he : e₀.Extends e) (hbelow : Below e.freshId (.Lam name id body))
    (hrun : Returns (checkLam gas (rules gas) lhs name id body .Lone ty Γ) e u e') :
    ∃ t, ChecksBy (e₀.Settled lhs.name) e₀ Γ (.Lam name id body) ty t ∧ Accounts t u := by
  rw [checkLam, returns_bind] at hrun
  obtain ⟨t, e₁, ht, hrun⟩ := hrun
  have he₁ := keeps_whnf _ _ _ _ _ ht
  split at hrun
  · simp only [returns_bind, returns_freshId] at hrun
    obtain ⟨_, _, ⟨-, rfl, rfl⟩, v, e₃, hv, hu⟩ := hrun
    have hbody : Below e₁.freshId body := hbelow.lam.mono he₁.freshId
    have hnew : ¬FreeIn e₁.freshId body ∧ ¬BoundIn e₁.freshId body :=
      ⟨fun hx => (hbody _ (.inl hx)).false, fun hx => (hbody _ (.inr hx)).false⟩
    have hself : (if 0 < lhs.remaining then
        { lhs with
          equation := apply lhs.equation [.Var name e₁.freshId]
          remaining := lhs.remaining - 1 }
      else lhs).name = lhs.name := by split <;> rfl
    have he₂ : e₀.Extends { e₁ with freshId := e₁.freshId + 1 } :=
      (he.trans he₁).trans ⟨rfl, rfl, rfl, Nat.le_succ _, fun _ _ h => h⟩
    obtain ⟨s, hs, hsv⟩ := h.check he₂ ((hbody.mono (Nat.le_succ _)).substitute
      (below_var (Nat.lt_succ_self _))) hv
    rw [hself] at hs
    exact ⟨_, .lam (he.reduces ht) hnew.1 hnew.2 hs, hsv.scope hu⟩
  · simp [mismatch] at hrun

/-- The values of a `let`. -/
theorem Reads.values (h : Reads gas) {bindings : List (LetBinding Term)} {next : Context}
    {uses : Uses} {r : List (Binder Term) × Context × Uses} (he : e₀.Extends e)
    (hbelow : ∀ b ∈ bindings, Below e.freshId b.value)
    (hrun : Returns (letBindings (rules gas) lhs .Lone Γ bindings next uses) e r e') :
    ∃ t u, ValuesBy (e₀.Settled lhs.name) e₀ Γ bindings next r.2.1 t ∧ Accounts t u ∧
      r.2.2 = uses.add u ∧
      r.1.map (fun b => (b.quant, b.id)) = bindings.map fun b => (b.quant, b.id) := by
  induction bindings generalizing next uses e r e' with
  | nil =>
    obtain ⟨rfl, -⟩ := returns_pure.mp hrun
    refine ⟨.leaf, Uses.new, .nil, .leaf, funext fun id => ?_, rfl⟩
    simp only [Uses.add, Uses.new]
    cases uses id <;> rfl
  | cons b bindings ih =>
    rw [letBindings, returns_ite] at hrun
    split at hrun
    · exact (returns_fail hrun).elim
    · simp only [returns_bind, returns_pure] at hrun
      obtain ⟨value, e₁, hvalue, _, e₂, hkind, rest, e₃, hrest, rfl, -⟩ := hrun
      have he₁ := (keep_rules gas).infer _ _ _ _ _ _ _ _ hvalue
      have he₂ := he₁.trans ((keep_rules gas).check _ _ _ _ _ _ _ _ hkind)
      obtain ⟨t, v, ht, hv, hr, hids⟩ := ih (he.trans he₂)
        (fun a ha => (hbelow a (List.mem_cons_of_mem _ ha)).mono he₂.freshId) hrest
      have hty := he.hasType hvalue
      by_cases hquant : b.quant = .None
      · rw [hquant] at hvalue
        have hsilent := (silent_rules gas).infer _ _ _ _ _ _ _ hvalue
        refine ⟨.both .leaf t, v, .dead hquant hty ht, ?_, ?_, by simpa using hids⟩
        · simpa using Accounts.leaf.both hv
        · rw [hr, hsilent, Uses.add_assoc, Uses.new_add]
      · have hdemand : b.quant.demand .Lone = .Lone := by
          cases hq : b.quant <;> simp_all [Quant.demand]
        rw [hdemand] at hvalue
        obtain ⟨s, hs, hsu⟩ := h.infer he (hbelow b (List.mem_cons_self ..)) hvalue
        exact ⟨.both s t, value.2.add v, .live hquant hty hs ht, hsu.both hv,
          by rw [hr, Uses.add_assoc], by simpa using hids⟩

/-- **`let`.** -/
theorem Reads.bind (h : Reads gas) {bindings : List (LetBinding Term)} {body ty : Term} {u : Uses}
    (he : e₀.Extends e) (hbelow : Below e.freshId (.Let bindings body))
    (hrun : Returns (checkLet (rules gas) lhs bindings body .Lone ty Γ) e u e') :
    ∃ t, ChecksBy (e₀.Settled lhs.name) e₀ Γ (.Let bindings body) ty t ∧ Accounts t u := by
  simp only [checkLet, returns_bind, returns_modify, returns_pure] at hrun
  obtain ⟨checked, e₁, hchecked, -, _, rfl, v, e₃, hv, -, _, rfl, w, e₄, hw, rfl, -⟩ := hrun
  have he₁ := keeps_letBindings (keep_rules gas) _ _ _ _ _ _ _ _ _ hchecked
  obtain ⟨s, su, hs, hsu, hr, hids⟩ := h.values he
    (fun b hb => hbelow.part (fun _ => .letValue hb) fun _ => .letValue hb) hchecked
  have hext := (he.trans he₁).alias bindings
  obtain ⟨t, ht, htv⟩ := h.check hext (hbelow.letBody.mono he₁.freshId) hv
  rw [Uses.new_add] at hr
  exact ⟨_, .bind hs ht, hr ▸ hsu.both (hids ▸ htv.scopes hw)⟩

/-- **Constructors.** -/
theorem Reads.ctr (h : Reads gas) {name : String} {args : List Term} {ty v : Term} {u : Uses}
    {e₁ : Engine} (he : e₀.Extends e) (hbelow : ∀ a ∈ args, Below e.freshId a)
    (hty : Returns (whnf gas ty) e v e₁)
    (hrun : Returns (checkCtr gas (rules gas) lhs name args .Lone v Γ) e₁ u e') :
    ∃ t, ChecksBy (e₀.Settled lhs.name) e₀ Γ (.Ctr name args) ty t ∧ Accounts t u := by
  have he₁ := keeps_whnf _ _ _ _ _ hty
  rw [checkCtr, returns_bind] at hrun
  obtain ⟨adt, e₂, hadt, hrun⟩ := hrun
  obtain ⟨family, parameters, excluded, rfl⟩ := adt_of_returns_adtOf hadt
  obtain ⟨decl, hdecl, rfl, rfl⟩ := returns_adtOf hadt
  split at hrun
  · exact (returns_fail hrun).elim
  · rename_i ctr hctr
    simp only [returns_ite] at hrun
    split at hrun
    · exact (returns_fail hrun).elim
    · simp only [returns_bind, returns_pure] at hrun
      obtain ⟨checked, e₃, hargs, rfl, -⟩ := hrun
      obtain ⟨t, v, ht, hv, hr⟩ := h.arguments (he.trans he₁)
        (fun a ha => (hbelow a ha).mono he₁.freshId) hargs
      rw [Uses.new_add] at hr
      exact ⟨t, .ctr (he.reduces hty) ((he.trans he₁).adts ▸ hdecl) hctr ht, hr ▸ hv⟩

theorem Lhs.arm_name (fields : List (Binder Term)) (value : Term) :
    (lhs.arm fields value).name = lhs.name := by
  unfold Lhs.arm
  split <;> rfl

/-- **Matches.** -/
theorem Reads.mat (h : Reads gas) {value ty : Term} {u : Uses}
    (hvalue : value = .Efq ∨ ∃ c arm fallback, value = .Mat c arm fallback)
    (he : e₀.Extends e) (hbelow : Below e.freshId value)
    (hrun : Returns (checkMatch gas (rules gas) lhs value .Lone ty Γ) e u e') :
    ∃ t, ChecksBy (e₀.Settled lhs.name) e₀ Γ value ty t ∧ Accounts t u := by
  have hmatch := returns_checkMatch hrun
  obtain ⟨quant, x, id, domain, body, e₁, family, args, excluded, e₂, decl, hty, -, hdomain, hdecl,
    hrule⟩ := hmatch
  have he₁ := keeps_whnf _ _ _ _ _ hty
  have he₂ := he₁.trans (keeps_whnf _ _ _ _ _ hdomain)
  rcases hvalue with rfl | ⟨c, arm, fallback, rfl⟩
  · obtain ⟨rfl, -⟩ := returns_checkEfq hrule
    exact ⟨.leaf, .efq, .leaf⟩
  · obtain ⟨ctr, fields, e₃, v, e₄, w, hctr, hfields, harm, hfallback, rfl⟩ :=
      returns_checkMat hrule
    have he₃ := he₂.trans (keeps_freshFields _ _ _ _ _ _ hfields)
    have he₄ := he₃.trans ((keep_rules gas).check _ _ _ _ _ _ _ _ harm)
    have hname : (decl.retain excluded).name = family := e.named family decl hdecl
    rw [hname] at hfallback
    obtain ⟨s, hs, hsv⟩ := h.check (he.trans he₃)
      ((hbelow.part (fun _ => .arm) fun _ => .arm).mono he₃.freshId) harm
    obtain ⟨t, ht, htw⟩ := h.check (he.trans he₄)
      ((hbelow.part (fun _ => .fallback) fun _ => .fallback).mono he₄.freshId) hfallback
    rw [Lhs.arm_name] at hs
    exact ⟨.choice s t, .mat (he.reduces hty) ((he.trans he₁).reduces hdomain) (he.adts ▸ hdecl)
      hctr ⟨e₂, e₃, he.trans he₂, hfields⟩ hs ht, hsv.choice htw⟩

/-- **Rewrites.** -/
theorem Reads.rwt (h : Reads gas) {evidence motive body ty : Term} {u : Uses}
    (he : e₀.Extends e) (hbelow : Below e.freshId (.Rwt evidence motive body))
    (hrun : Returns (checkRwt gas (rules gas) lhs evidence motive body .Lone ty Γ) e u e') :
    ∃ t, ChecksBy (e₀.Settled lhs.name) e₀ Γ (.Rwt evidence motive body) ty t ∧ Accounts t u := by
  rw [checkRwt, returns_bind] at hrun
  obtain ⟨inferred, e₁, hevidence, hrun⟩ := hrun
  rw [returns_bind] at hrun
  obtain ⟨et, e₂, het, hrun⟩ := hrun
  have he₁ := (keep_rules gas).infer _ _ _ _ _ _ _ _ hevidence
  have he₂ := he₁.trans (keeps_whnf _ _ _ _ _ het)
  split at hrun
  · simp only [returns_bind, returns_ite, returns_pure] at hrun
    obtain ⟨x, e₃, hx, y, e₄, hy, _, e₅, hmotive, fits, e₆, hfits, hrun⟩ := hrun
    have he₆ : e₂.Extends e₆ := (keeps_freshId _ _ _ hx).trans <| (keeps_freshId _ _ _ hy).trans <|
      ((keep_rules gas).check _ _ _ _ _ _ _ _ hmotive).trans (keeps_compare _ _ _ _ _ _ _ hfits)
    split at hrun
    · obtain ⟨v, e₇, hv, rfl, -⟩ := hrun
      obtain ⟨s, hs, hsu⟩ := h.infer he
        (hbelow.part (fun _ => .evidence) fun _ => .evidence) hevidence
      obtain ⟨t, ht, htv⟩ := h.check (he.trans (he₂.trans he₆))
        ((hbelow.part (fun _ => .body) fun _ => .body).mono (he₂.trans he₆).freshId) hv
      exact ⟨.both s t, .rwt hs (he.hasType hevidence) ((he.trans he₁).reduces het) ht,
        hsu.both htv⟩
    · simp [mismatch] at hrun
  · exact (returns_fail hrun).elim

/-- **The checking rules.** -/
theorem Reads.checked (h : Reads gas) {value ty : Term} {u : Uses} (he : e₀.Extends e)
    (hbelow : Below e.freshId value)
    (hrun : Returns (checkInner gas (rules gas) lhs value .Lone ty Γ) e u e') :
    ∃ t, ChecksBy (e₀.Settled lhs.name) e₀ Γ value ty t ∧ Accounts t u := by
  unfold checkInner at hrun
  split at hrun
  · exact (returns_fail hrun).elim
  · exact h.lam he hbelow hrun
  · exact h.bind he hbelow hrun
  · rw [returns_bind] at hrun
    obtain ⟨v, e₁, hv, hrun⟩ := hrun
    exact h.ctr he (fun a ha => hbelow.part (fun _ => .ctr ha) fun _ => .ctr ha) hv hrun
  · exact h.mat (.inr ⟨_, _, _, rfl⟩) he hbelow hrun
  · exact h.mat (.inl rfl) he hbelow hrun
  · obtain rfl := silent_checkRfl _ _ _ _ _ hrun
    exact ⟨.leaf, .rfl, .leaf⟩
  · exact h.rwt he hbelow hrun
  · simp only [returns_bind, returns_ite, returns_pure] at hrun
    obtain ⟨_, e₁, hstep, inferred, e₂, hinferred, fits, e₃, -, hrun⟩ := hrun
    have he₁ := keeps_step _ _ _ hstep
    obtain ⟨t, ht, hu⟩ := h.inferred (he.trans he₁) (hbelow.mono he₁.freshId) hinferred
    split at hrun
    · obtain ⟨rfl, -⟩ := hrun
      exact ⟨t, .switch ht, hu⟩
    · simp [mismatch] at hrun

end Reads

/-- **Every accepted live term is read.** -/
theorem reads (gas : Nat) : Reads gas := by
  induction gas with
  | zero => exact ⟨fun _ _ h => (returns_exhausted h).elim, fun _ _ h => (returns_exhausted h).elim⟩
  | succ gas ih =>
    constructor
    · intro lhs value Γ arguments e₀ e e' r he hbelow h
      obtain ⟨-, -, e₁, hrun, -⟩ := returns_charged.mp h
      exact ih.inferred (e := { e with fuel := e.fuel - 1, depth := e.depth + 1 })
        (he.trans ⟨rfl, rfl, rfl, Nat.le_refl _, fun _ _ h => h⟩) hbelow hrun
    · intro lhs value ty Γ e₀ e e' u he hbelow h
      obtain ⟨-, -, e₁, hrun, -⟩ := returns_charged.mp h
      exact ih.checked (e := { e with fuel := e.fuel - 1, depth := e.depth + 1 })
        (he.trans ⟨rfl, rfl, rfl, Nat.le_refl _, fun _ _ h => h⟩) hbelow hrun

/-! ## 6. The theorem -/

/-- The use of a variable says how often some path meets it at most. -/
structure Exact (t : Reading) (id : Nat) (q : Quant) (n : Nat) : Prop where
  greatest : IsGreatest (t.counts id) n
  none : q = .None ↔ n = 0
  lone : q = .Lone ↔ n = 1
  many : q = .Many ↔ 2 ≤ n

theorem Accounts.exact {t : Reading} {u : Uses} (h : Accounts t u) (id : Nat) :
    Exact t id (u id) (t.most id) := by
  refine ⟨t.most_isGreatest id, ?_, ?_, ?_⟩ <;> rw [h.uses] <;>
    rcases t.most id with _ | _ | n <;> simp [Quant.ofCount]

/-- **Quantity accounting is exact over branches.**  A term that is accepted at the demand `Lone`,
with all its numbers below the next fresh one, is read as a tree of live occurrences: the use of
every variable is `None`, `Lone` or `Many` exactly when the maximum over the paths of the tree is 0,
1 or at least 2, and every path through a lambda or a `let` meets its variable as often as the
binder permits. -/
theorem uses_exact :
    (∀ (gas : Nat) (lhs : Lhs) (value ty : Term) (Γ : Context) (e e' : Engine) (u : Uses),
      Below e.freshId value → Returns (check gas lhs value .Lone ty Γ) e u e' →
        ∃ t, Checks e Γ value ty t ∧ t.Bounded Quant.Permits ∧ ∀ id, ∃ n, Exact t id (u id) n) ∧
    ∀ (gas : Nat) (lhs : Lhs) (value ty : Term) (Γ : Context) (arguments : List Term)
      (e e' : Engine) (u : Uses), Below e.freshId value →
        Returns (infer gas lhs value .Lone Γ arguments) e (ty, u) e' →
        ∃ t, Infers e Γ value t ∧ t.Bounded Quant.Permits ∧ ∀ id, ∃ n, Exact t id (u id) n := by
  refine ⟨?_, ?_⟩
  · intro gas lhs value ty Γ e e' u hbelow h
    obtain ⟨t, ht, hu⟩ := (reads gas).check (.refl e) hbelow h
    exact ⟨t, ht.checks, hu.bounded, fun id => ⟨_, hu.exact id⟩⟩
  · intro gas lhs value ty Γ arguments e e' u hbelow h
    obtain ⟨t, ht, hu⟩ := (reads gas).infer (.refl e) hbelow h
    exact ⟨t, ht.infers, hu.bounded, fun id => ⟨_, hu.exact id⟩⟩

/-! ### One context -/

/-- A context with one quantity `y`. -/
def oneQuantity : Context := Context.new.insert ⟨.Lone, "y", 0, .Qnt⟩

/-- An engine that knows truth values. -/
def boolEngine : Engine where
  defs _ := none
  adts name := if name = "Bool" then
    some ⟨"Bool", [], kind .Lone, [⟨"False", []⟩, ⟨"True", []⟩]⟩ else none
  named := by
    intro name adt h
    split at h
    · cases h
      exact Eq.symm ‹_›
    · cases h
  aliases _ := none
  foreignContracts _ := false
  numericContracts _ := false
  opaqueContracts _ := false
  freshId := 2
  fuel := 20
  depth := 0
  pointers := .distinct
  display _ := ""

/-- `{False: y; True: y}`. -/
def quantityMatch : Term := .Mat "False" (.Var "y" 0) (.Mat "True" (.Var "y" 0) .Efq)

/-- The type of `quantityMatch`. -/
def quantityGoal : Term := .All .Lone "x" 1 (.Adt "Bool" [] []) .Qnt

theorem below_quantityMatch : Below boolEngine.freshId quantityMatch := by
  have hy : Below boolEngine.freshId (.Var "y" 0) := below_var (by decide)
  rintro x (hx | hx)
  · cases hx with
    | arm hx => exact hy x (.inl hx)
    | fallback hx =>
      cases hx with
      | arm hx => exact hy x (.inl hx)
      | fallback hx => cases hx
  · cases hx with
    | arm hx => exact hy x (.inr hx)
    | fallback hx =>
      cases hx with
      | arm hx => exact hy x (.inr hx)
      | fallback hx => cases hx

theorem below_quantityMin : Below boxEngine.freshId (.Min (.Var "y" 0) (.Var "y" 0)) := by
  have hy : Below boxEngine.freshId (.Var "y" 0) := below_var (by decide)
  rintro x (hx | hx)
  · cases hx with
    | minL hx => exact hy x (.inl hx)
    | minR hx => exact hy x (.inl hx)
  · cases hx with
    | minL hx => exact hy x (.inr hx)
    | minR hx => exact hy x (.inr hx)

/-- Both arms of the match use `y`, and the match uses it once, as each of its paths does.  `y <> y`
uses `y` twice. -/
theorem uses_exact_match :
    (∃ (t : Reading) (u : Uses), Checks boolEngine oneQuantity quantityMatch quantityGoal t ∧
      t.Bounded Quant.Permits ∧ u 0 = .Lone ∧ Exact t 0 .Lone 1) ∧
    ∃ (t : Reading) (u : Uses), Infers boxEngine oneQuantity (.Min (.Var "y" 0) (.Var "y" 0)) t ∧
      t.Bounded Quant.Permits ∧ u 0 = .Many ∧ ∀ id, ∃ n, Exact t id (u id) n := by
  constructor
  · have hrun : (result (check 6 .default quantityMatch .Lone quantityGoal oneQuantity)
        boolEngine).map (· 0) = some .Lone := by decide +kernel
    obtain ⟨u, e', h, hu⟩ := returns_of_result hrun
    obtain ⟨t, ht, hbounded, hexact⟩ := uses_exact.1 6 .default _ _ oneQuantity boolEngine e' u
      below_quantityMatch h
    obtain ⟨n, hn⟩ := hexact 0
    rw [hu] at hn
    obtain rfl : n = 1 := hn.lone.mp rfl
    exact ⟨t, u, ht, hbounded, hu, hn⟩
  · have hrun : (result (infer 8 .default (.Min (.Var "y" 0) (.Var "y" 0)) .Lone oneQuantity [])
        boxEngine).map (·.2 0) = some .Many := by decide +kernel
    obtain ⟨r, e', h, hu⟩ := returns_of_result hrun
    obtain ⟨t, ht, hbounded, hexact⟩ := uses_exact.2 8 .default _ r.1 oneQuantity [] boxEngine e'
      r.2 below_quantityMin h
    exact ⟨t, r.2, ht, hbounded, hu, hexact⟩

mutual

/-- The free occurrences of a variable in a term as it is written, live or not. -/
def written (id : Nat) : Term → Nat
  | .Var _ x => if x = id then 1 else 0
  | .Typ g => written id g
  | .Min a b => written id a + written id b
  | .All _ _ x domain body => written id domain + if x = id then 0 else written id body
  | .Lam _ x body => if x = id then 0 else written id body
  | .App f x => written id f + written id x
  | .Adt _ args _ => writtenArgs id args
  | .Ctr _ args => writtenArgs id args
  | .Mat _ arm fallback => written id arm + written id fallback
  | .Eql left right ty => written id left + written id right + written id ty
  | .Rwt evidence motive body => written id evidence + written id motive + written id body
  | .Ann value ty => written id value + written id ty
  | .Let bindings body =>
    writtenBindings id bindings + if bindings.any (·.id = id) then 0 else written id body
  | _ => 0

/-- `written` on an argument list. -/
def writtenArgs (id : Nat) : List Term → Nat
  | [] => 0
  | a :: args => written id a + writtenArgs id args

/-- `written` on the values of a `let`. -/
def writtenBindings (id : Nat) : List (LetBinding Term) → Nat
  | [] => 0
  | ⟨_, _, _, value⟩ :: bindings => written id value + writtenBindings id bindings

end

/-- The redex `(λx. x <> x)(y)` uses `y` twice, though `y` is written once. -/
theorem redex_uses_argument_twice :
    ∃ ty u e', Returns (infer 8 .default
        (.App (.Lam "x" 1 (.Min (.Var "x" 1) (.Var "x" 1))) (.Var "y" 0)) .Lone oneQuantity [])
        boxEngine (ty, u) e' ∧
      u 0 = .Many ∧
      written 0 (.App (.Lam "x" 1 (.Min (.Var "x" 1) (.Var "x" 1))) (.Var "y" 0)) = 1 := by
  have hrun : (result (infer 8 .default
      (.App (.Lam "x" 1 (.Min (.Var "x" 1) (.Var "x" 1))) (.Var "y" 0)) .Lone oneQuantity [])
      boxEngine).map (·.2 0) = some .Many := by decide +kernel
  obtain ⟨r, e', h, hu⟩ := returns_of_result hrun
  exact ⟨r.1, r.2, e', h, hu, by decide⟩

end TeamyBend.Kernel
