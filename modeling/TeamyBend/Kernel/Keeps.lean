/-
# What a run leaves unchanged

No rule of the kernel declares anything: a run keeps the definitions, the datatypes and the
contracts, takes new numbers from the end and leaves no alias behind.  `Keeps` says so of one
computation, and the lemmas below carry it through every function, in the order in which they are
defined.
-/
import TeamyBend.Kernel.Check

namespace TeamyBend.Kernel

/-! ## 1. Later engines -/

/-- `e'` is an engine that a run from `e` can leave. -/
structure Engine.Extends (e e' : Engine) : Prop where
  defs : e'.defs = e.defs
  adts : e'.adts = e.adts
  contracts : (e'.foreignContracts, e'.numericContracts, e'.opaqueContracts) =
    (e.foreignContracts, e.numericContracts, e.opaqueContracts)
  freshId : e.freshId ≤ e'.freshId
  aliases : ∀ id value, e'.aliases id = some value → e.aliases id = some value

theorem Engine.Extends.refl (e : Engine) : e.Extends e :=
  ⟨rfl, rfl, rfl, Nat.le_refl _, fun _ _ h => h⟩

/-- Names that are taken later are later still. -/
theorem Engine.Extends.trans {e e₁ e₂ : Engine} (h : e.Extends e₁) (h' : e₁.Extends e₂) :
    e.Extends e₂ where
  defs := h'.defs.trans h.defs
  adts := h'.adts.trans h.adts
  contracts := h'.contracts.trans h.contracts
  freshId := Nat.le_trans h.freshId h'.freshId
  aliases id value hid := h.aliases id value (h'.aliases id value hid)

/-- A computation whose runs only extend the engine. -/
def Keeps {α : Type} (m : M α) : Prop := ∀ e a e', Returns m e a e' → e.Extends e'

section Keeps

variable {α β : Type}

/-- One computation and then another. -/
theorem Keeps.bind {m : M α} {f : α → M β} (hm : Keeps m) (hf : ∀ a, Keeps (f a)) :
    Keeps (m >>= f) := by
  intro e b e' h
  obtain ⟨a, e₁, hma, hfb⟩ := returns_bind.mp h
  exact (hm _ _ _ hma).trans (hf a _ _ _ hfb)

@[simp] theorem keeps_pure (a : α) : Keeps (pure a) := by
  intro e b e' h
  obtain ⟨-, rfl⟩ := returns_pure.mp h
  exact .refl e

@[simp] theorem keeps_fail (message : String) : Keeps (fail message : M α) :=
  fun _ _ _ h => (returns_fail h).elim

@[simp] theorem keeps_exhausted : Keeps (exhausted : M α) := keeps_fail _

@[simp] theorem keeps_get : Keeps get := by
  intro e a e' h
  obtain ⟨-, rfl⟩ := returns_get.mp h
  exact .refl e

@[simp] theorem keeps_step : Keeps step := by
  intro e a e' h
  obtain ⟨-, rfl⟩ := returns_step.mp h
  exact ⟨rfl, rfl, rfl, Nat.le_refl _, fun _ _ h => h⟩

@[simp] theorem keeps_enter : Keeps enter := by
  intro e a e' h
  obtain ⟨-, rfl⟩ := returns_enter.mp h
  exact ⟨rfl, rfl, rfl, Nat.le_refl _, fun _ _ h => h⟩

@[simp] theorem keeps_leave : Keeps leave := by
  intro e a e' h
  obtain rfl := returns_leave.mp h
  exact ⟨rfl, rfl, rfl, Nat.le_refl _, fun _ _ h => h⟩

@[simp] theorem keeps_freshId : Keeps freshId := by
  intro e a e' h
  obtain ⟨-, -, rfl⟩ := returns_freshId.mp h
  exact ⟨rfl, rfl, rfl, Nat.le_succ _, fun _ _ h => h⟩

/-- The comparison of pointers reads the memory. -/
@[simp] theorem keeps_ptrEq (a b : Term) : Keeps (ptrEq a b) := by
  intro e r e' h
  obtain ⟨-, rfl⟩ := returns_ptrEq.mp h
  exact .refl e

theorem Keeps.ite {c : Prop} [Decidable c] {m n : M α} (hm : Keeps m) (hn : Keeps n) :
    Keeps (if c then m else n) := by
  split
  · exact hm
  · exact hn

/-- What is restored at the end is no counter of names. -/
theorem Keeps.ensuring {m : M α} {change : Engine → Engine} (hm : Keeps m)
    (hchange : ∀ e : Engine, e.Extends (change e)) : Keeps (ensuring m change) := by
  intro e a e' h
  obtain ⟨e₁, hma, rfl⟩ := returns_ensuring.mp h
  exact (hm _ _ _ hma).trans (hchange e₁)

theorem Keeps.charged {m : M α} (hm : Keeps m) : Keeps (charged m) :=
  keeps_step.bind fun _ => keeps_enter.bind fun _ => hm.ensuring fun _ =>
    ⟨rfl, rfl, rfl, Nat.le_refl _, fun _ _ h => h⟩

@[simp] theorem keeps_failShowing (before : String) (value : Term) :
    Keeps (failShowing before value : M α) := keeps_get.bind fun _ => keeps_fail _

@[simp] theorem keeps_mismatch (expected observed : Term) :
    Keeps (mismatch expected observed : M α) := keeps_get.bind fun _ => keeps_fail _

end Keeps

/-! ## 2. Reduction -/

/-- The arguments are gone through one after another. -/
theorem keeps_mapTerms {rule : Term → M Term} (h : ∀ t, Keeps (rule t)) (args : List Term) :
    Keeps (mapTerms rule args) := by
  induction args with
  | nil => exact keeps_pure _
  | cons a args ih => exact (h a).bind fun _ => ih.bind fun _ => keeps_pure _

/-- The binders of a `let` are renamed with the body. -/
theorem keeps_freshenBindings {freshen : Term → M Term} (h : ∀ t, Keeps (freshen t))
    (bindings : List (LetBinding Term)) (body : Term) :
    Keeps (freshenBindings freshen bindings body) := by
  induction bindings generalizing body with
  | nil => exact keeps_pure _
  | cons b bindings ih =>
    exact keeps_freshId.bind fun _ => (h _).bind fun _ => (ih _).bind fun _ => keeps_pure _

/-- One level of a renaming, given the renaming of the parts. -/
theorem keeps_freshenInner {freshen : Term → M Term} (h : ∀ t, Keeps (freshen t)) (t : Term) :
    Keeps (freshenInner freshen t) := by
  unfold freshenInner
  split
  · exact keeps_freshId.bind fun _ => (h _).bind fun _ => (h _).bind fun _ => keeps_pure _
  · exact keeps_freshId.bind fun _ => (h _).bind fun _ => keeps_pure _
  · exact (keeps_freshenBindings h _ _).bind fun _ => (h _).bind fun _ => keeps_pure _
  · exact (h _).bind fun _ => keeps_pure _
  · exact (h _).bind fun _ => (h _).bind fun _ => keeps_pure _
  · exact (h _).bind fun _ => (h _).bind fun _ => keeps_pure _
  · exact (h _).bind fun _ => (h _).bind fun _ => keeps_pure _
  · exact (keeps_mapTerms h _).bind fun _ => keeps_pure _
  · exact (keeps_mapTerms h _).bind fun _ => keeps_pure _
  · exact (h _).bind fun _ => (h _).bind fun _ => keeps_pure _
  · exact (h _).bind fun _ => (h _).bind fun _ => (h _).bind fun _ => keeps_pure _
  · exact (h _).bind fun _ => (h _).bind fun _ => (h _).bind fun _ => keeps_pure _
  · exact keeps_pure _

/-- **A renaming takes its names from the counter.** -/
theorem keeps_freshen (gas : Nat) (t : Term) : Keeps (freshen gas t) := by
  induction gas generalizing t with
  | zero => exact keeps_exhausted
  | succ gas ih => exact (keeps_freshenInner ih t).charged

section Whnf

variable {whnf : Term → M Term} (h : ∀ t, Keeps (whnf t))
include h

/-- An argument is consumed by a lambda or a match. -/
theorem keeps_consume (gas : Nat) (function arg : Term) (residual : Bool) :
    Keeps (consume whnf gas function arg residual) := by
  induction gas generalizing function arg residual with
  | zero => exact keeps_exhausted
  | succ gas ih =>
    refine (h function).bind fun function => ?_
    split
    · exact keeps_pure _
    · refine (h arg).bind fun arg => ?_
      split
      · exact .ite ((h _).bind fun _ => keeps_pure _) (ih _ _ _)
      · exact keeps_pure _
    · exact keeps_pure _
    · exact .ite (keeps_pure _) (keeps_pure _)

/-- The arguments of a spine are consumed from the first on. -/
theorem keeps_consumeArgs (gas : Nat) (result : Term) (progressed : Bool) (args : List Term) :
    Keeps (consumeArgs whnf gas result progressed args) := by
  induction args generalizing result progressed with
  | nil => exact keeps_pure _
  | cons arg args ih =>
    refine (keeps_consume h _ _ _ _).bind fun next => ?_
    split <;> exact ih _ _

/-- The patterns of a definition look at its arguments. -/
theorem keeps_namedPatternsInner (original : Term) (extra : List Term) (gas : Nat) (body : Term)
    (pending : List PatternArgument) :
    Keeps (namedPatternsInner whnf original extra gas body pending) := by
  induction gas generalizing body pending with
  | zero => cases pending <;> exact keeps_exhausted
  | succ gas ih =>
    rcases pending with _ | ⟨argument | _, pending⟩
    · exact keeps_pure _
    · refine keeps_step.bind fun _ => ?_
      split
      · exact ih _ _
      · refine (h _).bind fun scrutinee => ?_
        split
        · exact .ite (keeps_step.bind fun _ => keeps_enter.bind fun _ => ih _ _) (ih _ _)
        · exact keeps_pure _
      · exact keeps_pure _
      · exact ih _ _
      · exact ih _ _
      · refine (h _).bind fun evidence => ?_
        split
        · exact ih _ _
        · exact keeps_pure _
      · exact keeps_pure _
    · exact keeps_leave.bind fun _ => ih _ _

theorem keeps_namedPatterns (gas : Nat) (original body : Term) (args : List Term) (arity : Nat) :
    Keeps (namedPatterns whnf gas original body args arity) := by
  refine keeps_get.bind fun e => (keeps_namedPatternsInner h _ _ _ _ _).ensuring fun e' => ?_
  exact ⟨rfl, rfl, rfl, Nat.le_refl _, fun _ _ h => h⟩

/-- A definition is unfolded when its patterns decide. -/
theorem keeps_namedCall (gas : Nat) (value : Term) (definition : DefDecl) (args : List Term) :
    Keeps (namedCall whnf gas value definition args) := by
  unfold namedCall
  split
  · exact .ite ((keeps_freshen _ _).bind fun _ => keeps_namedPatterns h _ _ _ _ _) (keeps_pure _)
  · exact keeps_pure _

/-- The head of a spine is evaluated, and then the spine. -/
theorem keeps_whnfSpine (gas : Nat) (value : Term) : Keeps (whnfSpine whnf gas value) := by
  unfold whnfSpine
  split
  · refine keeps_get.bind fun e => ?_
    split
    · exact keeps_namedCall h _ _ _ _
    · exact keeps_pure _
  · refine .ite (keeps_pure _) ((h _).bind fun _ => (keeps_consumeArgs h _ _ _ _).bind fun _ => ?_)
    exact .ite (keeps_pure _) (keeps_pure _)

/-- One turn of the evaluation. -/
theorem keeps_whnfTurn (gas : Nat) (value : Term) : Keeps (whnfTurn whnf gas value) := by
  unfold whnfTurn
  split
  · refine keeps_get.bind fun e => ?_
    split <;> exact keeps_pure _
  · exact keeps_pure _
  · exact keeps_pure _
  · refine (h _).bind fun a => ?_
    split
    · exact keeps_pure _
    · exact keeps_pure _
    · exact (h _).bind fun _ => keeps_pure _
  · refine (h _).bind fun evidence => ?_
    split <;> exact keeps_pure _
  · refine keeps_get.bind fun e => ?_
    split
    · exact keeps_pure _
    · exact keeps_whnfSpine h _ _
  · refine keeps_get.bind fun e => ?_
    split
    · exact keeps_pure _
    · exact keeps_whnfSpine h _ _
  · exact keeps_whnfSpine h _ _
  · exact keeps_pure _

theorem keeps_whnfInner (gas turns : Nat) (value : Term) :
    Keeps (whnfInner whnf gas turns value) := by
  induction turns generalizing value with
  | zero => exact keeps_exhausted
  | succ turns ih =>
    refine (keeps_whnfTurn h _ _).bind fun flow => ?_
    split
    · exact keeps_pure _
    · exact keeps_step.bind fun _ => ih _

end Whnf

/-- **The evaluation to a head.** -/
theorem keeps_whnf (gas : Nat) (value : Term) : Keeps (whnf gas value) := by
  induction gas generalizing value with
  | zero => exact keeps_exhausted
  | succ gas ih => exact (keeps_whnfInner ih _ _ _).charged

/-! ## 3. Comparison -/

theorem Keeps.both {a b : M Bool} (ha : Keeps a) (hb : Keeps b) : Keeps (both a b) :=
  ha.bind fun _ => .ite hb (keeps_pure _)

section Compare

variable {whnf : Term → M Term} {compare : Comparison → Term → Term → M Bool}
  (hw : ∀ t, Keeps (whnf t)) (h : ∀ mode a b, Keeps (compare mode a b))
include h

/-- The arguments are compared one after another. -/
theorem keeps_compareArgs (xs ys : List Term) : Keeps (compareArgs compare xs ys) := by
  induction xs generalizing ys with
  | nil => cases ys <;> exact keeps_pure _
  | cons x xs ih =>
    cases ys with
    | nil => exact keeps_pure _
    | cons y ys => exact (h _ _ _).both (ih ys)

theorem keeps_compareList (xs ys : List Term) : Keeps (compareList compare xs ys) :=
  .ite (keeps_pure _) (keeps_compareArgs h _ _)

theorem keeps_compareAll (mode : Comparison) (aq : Quant) (ai : Nat) (ad ab : Term) (bq : Quant)
    (bi : Nat) (bd bb : Term) : Keeps (compareAll compare mode aq ai ad ab bq bi bd bb) :=
  .ite (keeps_pure _) ((h _ _ _).both (keeps_freshId.bind fun _ => h _ _ _))

include hw

/-- A kind may stand for a larger one. -/
theorem keeps_fitsKind (a b g h' : Term) : Keeps (fitsKind whnf compare a b g h') := by
  refine (hw _).bind fun g => (hw _).bind fun h' => ?_
  split
  · exact keeps_pure _
  · exact keeps_pure _
  · exact keeps_pure _
  · exact (h _ _ _).both (h _ _ _)
  · exact (h _ _ _).bind fun _ => .ite (keeps_pure _) (h _ _ _)
  · exact h _ _ _

/-- Two heads are compared by their kind. -/
theorem keeps_compareHeads (mode : Comparison) (a b : Term) :
    Keeps (compareHeads whnf compare mode a b) := by
  unfold compareHeads
  split
  any_goals exact keeps_pure _
  · exact .ite (h _ _ _) (keeps_fitsKind hw h _ _ _ _)
  · exact keeps_compareAll h _ _ _ _ _ _ _ _ _
  · exact (h _ _ _).both (h _ _ _)
  · exact (h _ _ _).both (h _ _ _)
  · exact .ite (keeps_pure _) (keeps_compareList h _ _)
  · exact .ite (keeps_compareList h _ _) (keeps_pure _)
  · exact .ite ((h _ _ _).both (h _ _ _)) (keeps_pure _)
  · exact (h _ _ _).both ((h _ _ _).both (h _ _ _))
  · exact (h _ _ _).both ((h _ _ _).both (h _ _ _))

theorem keeps_compareInner (mode : Comparison) (a b : Term) :
    Keeps (compareInner whnf compare mode a b) := by
  refine (keeps_ptrEq _ _).bind fun _ => .ite (keeps_pure _) ?_
  refine (hw _).bind fun a => (hw _).bind fun b => (keeps_ptrEq _ _).bind fun _ => ?_
  refine .ite (keeps_pure _) (.ite ?_ (keeps_compareHeads hw h _ _ _))
  exact keeps_freshId.bind fun _ => h _ _ _

end Compare

/-- **The comparison of two terms.** -/
theorem keeps_compare (gas : Nat) (mode : Comparison) (a b : Term) :
    Keeps (compare gas mode a b) := by
  induction gas generalizing mode a b with
  | zero => exact keeps_exhausted
  | succ gas ih => exact (keeps_compareInner (keeps_whnf gas) ih _ _ _).charged

/-! ## 4. Structural descent -/

/-- Aliases and annotations are stripped from an argument. -/
theorem keeps_stripDescentAliases (gas : Nat) (value : Term) :
    Keeps (stripDescentAliases gas value) := by
  induction gas generalizing value with
  | zero => exact keeps_exhausted
  | succ gas ih =>
    refine keeps_step.bind fun _ => ?_
    split
    · exact ih _
    · refine keeps_get.bind fun e => ?_
      split
      · exact ih _
      · exact keeps_pure _
    · exact keeps_pure _

section Descend

variable {descend : Term → Term → M Ordering} (h : ∀ a p, Keeps (descend a p))
include h

/-- The fields of a constructor are compared with those of the pattern. -/
theorem keeps_descendFields (order : Ordering) (xs ys : List Term) :
    Keeps (descendFields descend order xs ys) := by
  induction xs generalizing order ys with
  | nil => cases ys <;> exact keeps_pure _
  | cons x xs ih =>
    cases ys with
    | nil => exact keeps_pure _
    | cons y ys => exact (h x y).bind fun _ => .ite (keeps_pure _) (ih _ _)

theorem keeps_descendSame (a : Term) (pn : String) (px : List Term) :
    Keeps (descendSame descend a pn px) := by
  unfold descendSame
  split
  · exact .ite (keeps_descendFields h _ _ _) (keeps_pure _)
  · exact keeps_pure _

theorem keeps_descendInto (a : Term) (fields : List Term) :
    Keeps (descendInto (descend a) fields) := by
  induction fields with
  | nil => exact keeps_pure _
  | cons field fields ih => exact (h a field).bind fun _ => .ite ih (keeps_pure _)

end Descend

/-- **The order of an argument and its column.** -/
theorem keeps_descend (gas : Nat) (quant : Quant) (arg column : Term) :
    Keeps (descend gas quant arg column) := by
  induction gas generalizing quant arg column with
  | zero => exact keeps_exhausted
  | succ gas ih =>
    refine Keeps.charged (.ite (keeps_pure _) ?_)
    refine (keeps_stripDescentAliases _ _).bind fun a => ?_
    refine (keeps_stripDescentAliases _ _).bind fun p => ?_
    split
    · split
      · exact .ite (keeps_pure _) (keeps_pure _)
      · exact keeps_pure _
    · exact (keeps_descendSame (ih .Lone) _ _ _).bind fun _ =>
        .ite (keeps_descendInto (ih .Lone) _ _) (keeps_pure _)
    · exact keeps_pure _

theorem keeps_descentOrder (gas : Nat) (order : Ordering) (args cols : List Term)
    (quants : List Quant) : Keeps (descentOrder gas order args cols quants) := by
  induction args generalizing order cols quants with
  | nil => cases cols <;> cases quants <;> exact keeps_pure _
  | cons arg args ih =>
    rcases cols with _ | ⟨col, cols⟩
    · exact keeps_pure _
    · rcases quants with _ | ⟨quant, quants⟩
      · exact keeps_pure _
      · exact .ite (keeps_pure _) ((keeps_descend _ _ _ _).bind fun _ => ih _ _ _)

/-- A call of the definition itself must descend. -/
theorem keeps_guardSelfCall (gas : Nat) (lhs : Lhs) (name : String) (args : List Term) :
    Keeps (guardSelfCall gas lhs name args) :=
  .ite ((keeps_descentOrder _ _ _ _ _).bind fun _ => .ite (keeps_pure _) (keeps_fail _))
    (keeps_pure _)

/-- A reference has the type of its definition. -/
theorem keeps_inferReference (gas : Nat) (lhs : Lhs) (name : String) (demand : Quant)
    (args : List Term) : Keeps (inferReference gas lhs name demand args) := by
  refine keeps_get.bind fun e => ?_
  split
  · exact .ite (keeps_fail _) (keeps_pure _)
  · split
    · exact keeps_fail _
    · refine .ite ((keeps_guardSelfCall _ _ _ _).bind fun _ => ?_) (keeps_pure _)
      exact .ite (keeps_fail _) (keeps_pure _)

/-! ## 5. Checking -/

theorem keeps_checkUsage (b : Binder Term) (uses : Uses) : Keeps (checkUsage b uses) :=
  .ite (keeps_pure _) (keeps_fail _)

/-- The binders of a telescope are used as they promise. -/
theorem keeps_checkUsages (binders : List (Binder Term)) (uses : Uses) :
    Keeps (checkUsages binders uses) := by
  induction binders generalizing uses with
  | nil => exact keeps_pure _
  | cons b binders ih => exact (keeps_checkUsage _ _).bind fun _ => ih _

theorem keeps_adtOf (value : Term) : Keeps (adtOf value) := by
  unfold adtOf
  split
  · refine keeps_get.bind fun e => ?_
    split
    · exact keeps_fail _
    · exact .ite (keeps_fail _) (.ite (keeps_fail _) (keeps_pure _))
  · exact keeps_failShowing _ _

/-- The fields of a constructor get fresh names. -/
theorem keeps_freshFields (quant : Quant) (fields : List (Binder Term))
    (substitutions : List (Nat × Term)) : Keeps (freshFields quant fields substitutions) := by
  induction fields generalizing substitutions with
  | nil => exact keeps_pure _
  | cons field fields ih => exact keeps_freshId.bind fun _ => (ih _).bind fun _ => keeps_pure _

/-- A context is dead if one of its types has no constructor left. -/
theorem keeps_contextDead (gas : Nat) (binders : List (Binder Term)) :
    Keeps (contextDead gas binders) := by
  induction binders with
  | nil => exact keeps_pure _
  | cons b binders ih =>
    refine .ite ih ((keeps_whnf _ _).bind fun t => ?_)
    split
    · exact (keeps_adtOf _).bind fun _ => .ite (keeps_pure _) ih
    · exact ih

theorem keeps_checkEfq (gas : Nat) (adt : AdtDecl) (Γ : Context) : Keeps (checkEfq gas adt Γ) :=
  .ite (keeps_pure _)
    ((keeps_contextDead _ _).bind fun _ => .ite (keeps_pure _) (keeps_fail _))

theorem keeps_checkRfl (gas : Nat) (ty : Term) : Keeps (checkRfl gas ty) := by
  refine (keeps_whnf _ _).bind fun t => ?_
  split
  · exact (keeps_compare _ _ _ _).bind fun _ =>
      .ite (keeps_pure _) (keeps_get.bind fun _ => keeps_fail _)
  · exact keeps_mismatch _ _

/-- Aliases that are in force for one computation only. -/
theorem Keeps.aliased {α β : Type} {m : M α} {k : α → M β} (hm : Keeps m) (hk : ∀ a, Keeps (k a))
    (bindings : List (LetBinding Term)) :
    Keeps (do
      modify fun e => { e with aliases := insertAliases bindings e.aliases }
      let a ← m
      modify fun e => { e with aliases := removeAliases bindings e.aliases }
      k a) := by
  intro e b e' h
  simp only [returns_bind, returns_modify] at h
  obtain ⟨-, _, rfl, a, e₂, hrun, -, _, rfl, hb⟩ := h
  obtain ⟨hdefs, hadts, hcontracts, hfresh, haliases⟩ := hm _ _ _ hrun
  refine Engine.Extends.trans ?_ (hk _ _ _ _ hb)
  refine ⟨hdefs, hadts, hcontracts, hfresh, fun id value hid => ?_⟩
  replace hid : removeAliases bindings e₂.aliases id = some value := hid
  by_cases hmem : id ∈ bindings.map (·.id)
  · rw [removeAliases_of_mem hmem] at hid
    cases hid
  · rw [removeAliases_of_not_mem hmem] at hid
    have hinner : insertAliases bindings e.aliases id = some value := haliases id value hid
    rwa [insertAliases_of_not_mem hmem] at hinner

/-- Both calls keep the engine. -/
structure Rules.Keep (rules : Rules) : Prop where
  infer : ∀ lhs value demand Γ arguments, Keeps (rules.infer lhs value demand Γ arguments)
  check : ∀ lhs value demand ty Γ, Keeps (rules.check lhs value demand ty Γ)

section Rules

variable {rules : Rules} (h : rules.Keep)
include h

/-- The arguments are checked along the telescope. -/
theorem keeps_checkArguments (gas : Nat) (lhs : Lhs) (demand : Quant) (Γ : Context)
    (telescope : Term) (uses : Uses) (args : List Term) :
    Keeps (checkArguments gas rules lhs demand Γ telescope uses args) := by
  induction args generalizing telescope uses with
  | nil => exact keeps_pure _
  | cons arg args ih =>
    refine (keeps_whnf _ _).bind fun t => ?_
    split
    · exact (h.check _ _ _ _ _).bind fun _ => ih _ _
    · exact keeps_fail _

/-- The head of an application is inferred with its arguments. -/
theorem keeps_inferApp (gas : Nat) (lhs : Lhs) (f x : Term) (demand : Quant) (Γ : Context)
    (arguments : List Term) : Keeps (inferApp gas rules lhs f x demand Γ arguments) := by
  refine (h.infer _ _ _ _ _).bind fun function => (keeps_whnf _ _).bind fun t => ?_
  split
  · exact (h.check _ _ _ _ _).bind fun _ => keeps_pure _
  · exact keeps_failShowing _ _

/-- One level of the inference, given the rules for the parts. -/
theorem keeps_inferInner (gas : Nat) (lhs : Lhs) (value : Term) (demand : Quant) (Γ : Context)
    (arguments : List Term) : Keeps (inferInner gas rules lhs value demand Γ arguments) := by
  have hc := h.check
  unfold inferInner
  split
  · split
    · exact keeps_pure _
    · exact keeps_failShowing _ _
  · exact keeps_inferReference _ _ _ _ _
  · exact keeps_inferReference _ _ _ _ _
  · exact (hc _ _ _ _ _).bind fun _ => keeps_pure _
  · exact keeps_pure _
  · exact keeps_pure _
  · exact (hc _ _ _ _ _).bind fun _ => (hc _ _ _ _ _).bind fun _ => keeps_pure _
  · exact (hc _ _ _ _ _).bind fun _ => .ite (keeps_fail _)
      ((hc _ _ _ _ _).bind fun _ => keeps_pure _)
  · exact h.infer _ _ _ _ _
  · exact keeps_inferApp h _ _ _ _ _ _ _
  · exact (keeps_adtOf _).bind fun _ => (keeps_checkArguments h _ _ _ _ _ _ _).bind fun _ =>
      .ite (keeps_fail _) (keeps_pure _)
  · exact (hc _ _ _ _ _).bind fun _ => (hc _ _ _ _ _).bind fun _ => (hc _ _ _ _ _).bind fun _ =>
      keeps_pure _
  · exact (hc _ _ _ _ _).bind fun _ => (hc _ _ _ _ _).bind fun _ => keeps_pure _
  · exact keeps_fail _
  · exact keeps_failShowing _ _

/-- A lambda is checked against a function type. -/
theorem keeps_checkLam (gas : Nat) (lhs : Lhs) (name : String) (id : Nat) (body : Term)
    (demand : Quant) (ty : Term) (Γ : Context) :
    Keeps (checkLam gas rules lhs name id body demand ty Γ) := by
  refine (keeps_whnf _ _).bind fun t => ?_
  split
  · exact keeps_freshId.bind fun _ => (h.check _ _ _ _ _).bind fun _ => keeps_checkUsage _ _
  · exact keeps_mismatch _ _

theorem keeps_letBindings (lhs : Lhs) (demand : Quant) (Γ : Context)
    (bindings : List (LetBinding Term)) (next : Context) (uses : Uses) :
    Keeps (letBindings rules lhs demand Γ bindings next uses) := by
  induction bindings generalizing next uses with
  | nil => exact keeps_pure _
  | cons b bindings ih =>
    exact .ite (keeps_fail _) ((h.infer _ _ _ _ _).bind fun _ => (h.check _ _ _ _ _).bind fun _ =>
      (ih _ _).bind fun _ => keeps_pure _)

theorem keeps_checkLet (lhs : Lhs) (bindings : List (LetBinding Term)) (body : Term)
    (demand : Quant) (ty : Term) (Γ : Context) :
    Keeps (checkLet rules lhs bindings body demand ty Γ) :=
  (keeps_letBindings h _ _ _ _ _ _).bind fun _ => Keeps.aliased (h.check _ _ _ _ _)
    (fun _ => (keeps_checkUsages _ _).bind fun _ => keeps_pure _) _

/-- A constructor is checked against its datatype. -/
theorem keeps_checkCtr (gas : Nat) (lhs : Lhs) (name : String) (args : List Term)
    (demand : Quant) (t : Term) (Γ : Context) :
    Keeps (checkCtr gas rules lhs name args demand t Γ) := by
  refine (keeps_adtOf _).bind fun adt => ?_
  split
  · exact keeps_fail _
  · refine .ite (keeps_fail _) ?_
    split
    · exact (keeps_checkArguments h _ _ _ _ _ _ _).bind fun _ => keeps_pure _
    · exact keeps_failShowing _ _

/-- A rewrite checks its body against the rewritten motive. -/
theorem keeps_checkRwt (gas : Nat) (lhs : Lhs) (evidence motive body : Term) (demand : Quant)
    (ty : Term) (Γ : Context) :
    Keeps (checkRwt gas rules lhs evidence motive body demand ty Γ) := by
  refine (h.infer _ _ _ _ _).bind fun inferred => (keeps_whnf _ _).bind fun t => ?_
  split
  · refine keeps_freshId.bind fun _ => keeps_freshId.bind fun _ => (h.check _ _ _ _ _).bind fun _ =>
      (keeps_compare _ _ _ _).bind fun _ => .ite ?_ (keeps_mismatch _ _)
    exact (h.check _ _ _ _ _).bind fun _ => keeps_pure _
  · exact keeps_fail _

/-- A match checks its arm with the fields, and its fallback without the constructor. -/
theorem keeps_checkMat (lhs : Lhs) (constructor : String) (arm fallback : Term)
    (demand quant : Quant) (x : String) (id : Nat) (body : Term) (adt : AdtDecl)
    (args : List Term) (excluded : List String) (Γ : Context) :
    Keeps (checkMat rules lhs constructor arm fallback demand quant x id body adt args excluded
      Γ) := by
  unfold checkMat
  split
  · exact keeps_fail _
  · exact (keeps_freshFields _ _ _).bind fun _ => (h.check _ _ _ _ _).bind fun _ =>
      (h.check _ _ _ _ _).bind fun _ => keeps_pure _

theorem keeps_matchRule (gas : Nat) (lhs : Lhs) (demand quant : Quant) (x : String) (id : Nat)
    (body : Term) (adt : AdtDecl) (args : List Term) (excluded : List String) (Γ : Context)
    (value : Term) :
    Keeps (matchRule gas rules lhs demand quant x id body adt args excluded Γ value) := by
  unfold matchRule
  split
  · exact keeps_checkMat h _ _ _ _ _ _ _ _ _ _ _ _ _
  · exact keeps_checkEfq _ _ _

theorem keeps_checkMatch (gas : Nat) (lhs : Lhs) (value : Term) (demand : Quant) (ty : Term)
    (Γ : Context) : Keeps (checkMatch gas rules lhs value demand ty Γ) := by
  refine (keeps_whnf _ _).bind fun t => ?_
  split
  · refine .ite (keeps_fail _) ((keeps_whnf _ _).bind fun _ => (keeps_adtOf _).bind fun _ => ?_)
    split
    · exact keeps_matchRule h _ _ _ _ _ _ _ _ _ _ _ _
    · exact keeps_failShowing _ _
  · exact keeps_mismatch _ _

/-- One level of the check, given the rules for the parts. -/
theorem keeps_checkInner (gas : Nat) (lhs : Lhs) (value : Term) (demand : Quant) (ty : Term)
    (Γ : Context) : Keeps (checkInner gas rules lhs value demand ty Γ) := by
  unfold checkInner
  split
  · exact keeps_fail _
  · exact keeps_checkLam h _ _ _ _ _ _ _ _
  · exact keeps_checkLet h _ _ _ _ _ _
  · exact (keeps_whnf _ _).bind fun _ => keeps_checkCtr h _ _ _ _ _ _ _
  · exact keeps_checkMatch h _ _ _ _ _ _
  · exact keeps_checkMatch h _ _ _ _ _ _
  · exact keeps_checkRfl _ _
  · exact keeps_checkRwt h _ _ _ _ _ _ _ _
  · exact keeps_step.bind fun _ => (keeps_inferInner h _ _ _ _ _ _).bind fun _ =>
      (keeps_compare _ _ _ _).bind fun _ => .ite (keeps_pure _) (keeps_mismatch _ _)

end Rules

/-- **Checking keeps the engine.** -/
theorem keep_rules (gas : Nat) : (rules gas).Keep := by
  induction gas with
  | zero => exact ⟨fun _ _ _ _ _ => keeps_exhausted, fun _ _ _ _ _ => keeps_exhausted⟩
  | succ gas ih =>
    exact ⟨fun _ _ _ _ _ => (keeps_inferInner ih _ _ _ _ _ _).charged,
      fun _ _ _ _ _ => (keeps_checkInner ih _ _ _ _ _ _).charged⟩

end TeamyBend.Kernel
