/-
# Weak head reduction is sound

`whnf` follows the rules of reduction and stops where none is left.

Nothing is renamed when a term is substituted, so this holds where no binder has the number of a
free variable: `Engine.Tidy` says so of everything a run looks up, for a set `F` of numbers that
may be free, and every term of a run is tidy for the same `F`.  Definitions are copied with new
numbers before they are entered; the input and the aliases are used as they are.
-/
import TeamyBend.Kernel.Copies
import TeamyBend.Kernel.Rules

namespace TeamyBend.Kernel

/-! ## 1. Spines -/

@[simp] theorem nameless_app (f x : Term) :
    nameless (.App f x) = .App (nameless f) (nameless x) := rfl

@[simp] theorem nameless_mat (c : String) (arm fallback : Term) :
    nameless (.Mat c arm fallback) = .Mat c (nameless arm) (nameless fallback) := rfl

@[simp] theorem nameless_min (a b : Term) :
    nameless (.Min a b) = .Min (nameless a) (nameless b) := rfl

@[simp] theorem nameless_rwt (e m b : Term) :
    nameless (.Rwt e m b) = .Rwt (nameless e) (nameless m) (nameless b) := rfl

@[simp] theorem nameless_ann (v t : Term) :
    nameless (.Ann v t) = .Ann (nameless v) (nameless t) := rfl

@[simp] theorem nameless_lam (name : String) (x : Nat) (b : Term) :
    nameless (.Lam name x b) = .Lam (strip (Scope.free.push x) b) := rfl

@[simp] theorem nameless_ctr (c : String) (args : List Term) :
    nameless (.Ctr c args) = .Ctr c (args.map nameless) := by
  rw [nameless, strip, stripArgs_eq]
  rfl

@[simp] theorem nameless_let (bindings : List (LetBinding Term)) (body : Term) :
    nameless (.Let bindings body) =
      .Let (bindings.map (·.quant)) (bindings.map fun b => nameless b.value)
        (strip (Scope.free.pushAll (bindings.map (·.id))) body) := by
  rw [nameless, strip, stripBindings_eq]
  rfl

theorem referenceName_nameless (t : Term) : (nameless t).referenceName = referenceName t := by
  cases t <;> rfl

/-- A constructor was one before its names were forgotten. -/
theorem eq_ctr_of_nameless {t : Term} {c : String} {args : List Nameless}
    (h : nameless t = .Ctr c args) : ∃ fields, t = .Ctr c fields := by
  cases t with
  | Ctr name fields =>
    rw [nameless_ctr] at h
    cases h
    exact ⟨fields, rfl⟩
  | _ => cases h

theorem eq_lam_of_nameless {t : Term} {b : Nameless} (h : nameless t = .Lam b) :
    ∃ name id body, t = .Lam name id body := by
  cases t with
  | Lam name id body => exact ⟨name, id, body, rfl⟩
  | _ => cases h

/-- So was a match. -/
theorem eq_mat_of_nameless {t : Term} {c : String} {a f : Nameless} (h : nameless t = .Mat c a f) :
    ∃ arm fallback, t = .Mat c arm fallback := by
  cases t with
  | Mat d arm fallback =>
    rw [nameless_mat] at h
    cases h
    exact ⟨arm, fallback, rfl⟩
  | _ => cases h

theorem eq_rfl_of_nameless {t : Term} (h : nameless t = .Rfl) : t = .Rfl := by
  cases t with
  | Rfl => rfl
  | _ => cases h

theorem eq_qua_of_nameless {t : Term} {q : Quant} (h : nameless t = .Qua q) : t = .Qua q := by
  cases t with
  | Qua q' =>
    cases h
    rfl
  | _ => cases h

theorem nameless_apps (f : Term) (args : List Term) :
    nameless (apps f args) = (nameless f).apps (args.map nameless) := by
  induction args generalizing f with
  | nil => rfl
  | cons x args ih => exact ih (.App f x)

theorem apps_spineGo (t : Term) (args : List Term) :
    apps (spineGo t args).1 (spineGo t args).2 = apps t args := by
  induction t generalizing args with
  | App f x ihf _ => exact ihf (x :: args)
  | _ => rfl

theorem apps_spine (t : Term) : apps (spine t).1 (spine t).2 = t := apps_spineGo t []

/-- The head of a spine is no application. -/
theorem head_spineGo (t : Term) (args : List Term) :
    (nameless (spineGo t args).1).head = nameless (spineGo t args).1 ∧
      (nameless (spineGo t args).1).arguments = [] := by
  induction t generalizing args with
  | App f x ihf _ => exact ihf (x :: args)
  | _ => exact ⟨rfl, rfl⟩

theorem head_nameless (t : Term) : (nameless t).head = nameless (spine t).1 := by
  conv => lhs; rw [← apps_spine t, nameless_apps, Nameless.head_apps]
  exact (head_spineGo t []).1

theorem arguments_nameless (t : Term) :
    (nameless t).arguments = (spine t).2.map nameless := by
  conv => lhs; rw [← apps_spine t, nameless_apps, Nameless.arguments_apps]
  rw [spine, (head_spineGo t []).2, List.nil_append]

/-- The name of a call. -/
theorem callName_nameless (t : Term) :
    (nameless t).head.referenceName = referenceName (spine t).1 := by
  rw [head_nameless, referenceName_nameless]

/-! ## 2. Tidy engines -/

/-- What the engine looks up. -/
def Engine.globals (e : Engine) : Globals := ⟨e.defs, e.adts, e.aliases⟩

/-- **What a run can look up is tidy**, and the numbers of the engine are new. -/
structure Engine.Tidy (F : Nat → Prop) (g : Globals) (e : Engine) : Prop where
  globals : e.globals = g
  below : ∀ id, F id → id < e.freshId
  aliases : ∀ id t, g.aliases id = some t → Kernel.Tidy F t
  defs : ∀ name definition body, g.defs name = some definition → definition.body = some body →
    Below e.freshId body ∧ ∀ id, FreeIn id body → F id

section Tidy

variable {F : Nat → Prop} {g : Globals} {e e' : Engine}

/-- A tidy engine stays tidy when it only takes fresh names. -/
theorem Engine.Tidy.later (h : e.Tidy F g) (hlater : e.Later e') : e'.Tidy F g where
  globals := by
    rw [← h.globals, Engine.globals, Engine.globals, hlater.defs, hlater.adts, hlater.aliases]
  below id hid := Nat.lt_of_lt_of_le (h.below id hid) hlater.freshId
  aliases := h.aliases
  defs name definition body hdef hbody :=
    ⟨(h.defs name definition body hdef hbody).1.mono hlater.freshId,
      (h.defs name definition body hdef hbody).2⟩

/-- Budgets are not looked up. -/
theorem Engine.Tidy.budget (h : e.Tidy F g) (fuel depth : Nat) :
    ({ e with fuel := fuel, depth := depth } : Engine).Tidy F g :=
  h.later ⟨rfl, rfl, rfl, Nat.le_refl _⟩

/-- **A fresh copy of a definition is tidy.** -/
theorem Engine.Tidy.copy (h : e.Tidy F g) {name : String} {definition : DefDecl} {body copy : Term}
    {gas : Nat} (hdef : g.defs name = some definition) (hbody : definition.body = some body)
    (hrun : Returns (freshen gas body) e copy e') :
    e'.Tidy F g ∧ Kernel.Tidy F copy ∧ nameless copy = nameless body := by
  obtain ⟨hbelow, hfree⟩ := h.defs name definition body hdef hbody
  obtain ⟨hlater, hcopy⟩ := copies_freshen gas _ _ _ _ hbelow hrun
  refine ⟨h.later hlater, ⟨fun id hid => hfree id (hcopy.free id hid), fun id hid hF => ?_⟩,
    hcopy.strip _⟩
  exact Nat.not_lt.mpr (hcopy.bound id hid).1 (h.below id hF)

/-- An application is tidy if its parts are. -/
theorem Tidy.app {f x : Term} (hf : Tidy F f) (hx : Tidy F x) : Tidy F (.App f x) where
  free id hid := by
    cases hid with
    | fn hid => exact hf.free id hid
    | arg hid => exact hx.free id hid
  bound id hid := by
    cases hid with
    | fn hid => exact hf.bound id hid
    | arg hid => exact hx.bound id hid

theorem Tidy.min {a b : Term} (ha : Tidy F a) (hb : Tidy F b) : Tidy F (.Min a b) where
  free id hid := by
    cases hid with
    | minL hid => exact ha.free id hid
    | minR hid => exact hb.free id hid
  bound id hid := by
    cases hid with
    | minL hid => exact ha.bound id hid
    | minR hid => exact hb.bound id hid

theorem Tidy.fields {c : String} {args : List Term} (h : Tidy F (.Ctr c args)) :
    ∀ a ∈ args, Tidy F a :=
  fun _ ha => h.part (fun _ => .ctr ha) fun _ => .ctr ha

/-- The parts of a tidy spine are. -/
theorem tidy_spineGo {t : Term} {args : List Term} (ht : Tidy F t) (hargs : ∀ a ∈ args, Tidy F a) :
    Tidy F (spineGo t args).1 ∧ ∀ a ∈ (spineGo t args).2, Tidy F a := by
  induction t generalizing args with
  | App f x ihf _ =>
    refine ihf (ht.part (fun _ => .fn) fun _ => .fn) fun a ha => ?_
    rcases List.mem_cons.mp ha with rfl | ha
    · exact ht.part (fun _ => .arg) fun _ => .arg
    · exact hargs a ha
  | _ => exact ⟨ht, hargs⟩

/-- `apply` contracts the lambdas it meets. -/
theorem apply_sound {f : Term} {args : List Term} (hf : Tidy F f) (hargs : ∀ a ∈ args, Tidy F a) :
    Tidy F (apply f args) ∧
      Reaches g ((nameless f).apps (args.map nameless)) (nameless (apply f args)) := by
  induction args generalizing f with
  | nil => exact ⟨hf, .refl⟩
  | cons x args ih =>
    have hx := hargs x (List.mem_cons_self ..)
    have hrest : ∀ a ∈ args, Tidy F a := fun a ha => hargs a (List.mem_cons_of_mem _ ha)
    have hone : Tidy F (applyOne f x) ∧
        Reaches g (.App (nameless f) (nameless x)) (nameless (applyOne f x)) := by
      unfold applyOne
      split
      · refine ⟨hf.substitute hx, ?_⟩
        rw [hf.nameless_substitute hx, nameless_lam]
        exact Step.beta.reaches
      · exact ⟨hf.app hx, .refl⟩
    obtain ⟨htidy, hreach⟩ := ih hone.1 hrest
    exact ⟨htidy, (hone.2.apps _).trans hreach⟩

end Tidy

theorem pendingValues_append (pending more : List PatternArgument) :
    pendingValues (pending ++ more) = pendingValues pending ++ pendingValues more := by
  induction pending with
  | nil => rfl
  | cons argument pending ih => cases argument <;> simp [pendingValues, ih]

theorem pendingValues_map (args : List Term) : pendingValues (args.map .Value) = args := by
  induction args with
  | nil => rfl
  | cons a args ih => simp [pendingValues, ih]

/-- The fields of a constructor go before what was pending. -/
theorem pendingValues_fields (args : List Term) (pending : List PatternArgument) :
    pendingValues (args.map .Value ++ .EndFields :: pending) = args ++ pendingValues pending := by
  rw [pendingValues_append, pendingValues_map]
  rfl

/-! ## 3. What a run gives -/

/-- A call of a definition. -/
structure Calls (g : Globals) (t : Nameless) (definition : DefDecl) : Prop where
  called : ∃ name, t.head.referenceName = some name ∧ (t.arguments = [] → g.adts name = none) ∧
    g.defs name = some definition

/-- A call with too few arguments. -/
def Underapplied (g : Globals) (t : Nameless) : Prop :=
  ∃ definition, Calls g t definition ∧ t.arguments.length < definition.parameters.length

/-- A call whose body, given the arguments, waits in its patterns. -/
def BlockedCall (g : Globals) (t : Nameless) : Prop :=
  ∃ definition body, Calls g t definition ∧ definition.body = some body ∧
    definition.parameters.length ≤ t.arguments.length ∧
    Blocked g (nameless body) (t.arguments.take definition.parameters.length)

/-- A call that stays as it is.  That no other reduction of it goes on needs confluence. -/
def HeldCall (g : Globals) (t : Nameless) : Prop :=
  Underapplied g t ∨ g.Disjoint ∧ BlockedCall g t

/-- A call is one of the definition of its head. -/
theorem Calls.unique {g : Globals} {t : Nameless} {d definition : DefDecl} {name : String}
    (h : Calls g t d) (hname : t.head.referenceName = some name)
    (hdef : g.defs name = some definition) : d = definition := by
  obtain ⟨name', hname', -, hd⟩ := h.called
  rw [hname] at hname'
  cases hname'
  rw [hdef] at hd
  exact (Option.some.inj hd).symm

theorem HeldCall.calls {g : Globals} {t : Nameless} (h : HeldCall g t) : ∃ d, Calls g t d := by
  rcases h with ⟨d, hd, -⟩ | ⟨-, d, _, hd, -⟩ <;> exact ⟨d, hd⟩

/-- The terms that no run changes. -/
def IsValue : Term → Prop
  | .Lam .. | .Mat .. | .Ctr .. => True
  | _ => False

/-- **A run from `t` that gives `v`.** -/
structure Evaluates (F : Nat → Prop) (g : Globals) (e' : Engine) (t v : Term) : Prop where
  engine : e'.Tidy F g
  tidy : Tidy F v
  reaches : Reaches g (nameless t) (nameless v)
  whnf : Whnf g (nameless v)
  value : IsValue t → v = t
  held : HeldCall g (nameless t) → v = t

/-- Every run of a rule evaluates. -/
def Sound (F : Nat → Prop) (g : Globals) (rule : Term → M Term) : Prop :=
  ∀ e t v e', e.Tidy F g → Tidy F t → Returns (rule t) e v e' → Evaluates F g e' t v

section Whnf

variable {F : Nat → Prop} {g : Globals} {rule : Term → M Term} (hw : Sound F g rule)
include hw

/-- **A constructor for a fallback.** -/
theorem consume_residual {gas : Nat} {function : Term} {d : String} {args : List Term}
    {e e' : Engine} {r : Option Term} (he : e.Tidy F g) (hf : Tidy F function)
    (hargs : Tidy F (.Ctr d args))
    (hrun : Returns (consume rule gas function (.Ctr d args) true) e r e') :
    e'.Tidy F g ∧ (∀ next, r = some next → Tidy F next ∧
      Reaches g (.App (nameless function) (nameless (.Ctr d args))) (nameless next)) ∧
      (r = none → Residual g d (nameless function)) := by
  induction gas generalizing function args e r with
  | zero => exact (returns_exhausted hrun).elim
  | succ gas ih =>
    rw [consume, returns_bind] at hrun
    obtain ⟨f, e₁, hfun, hrun⟩ := hrun
    have hev := hw _ _ _ _ he hf hfun
    have hreach := hev.reaches.fn (nameless (.Ctr d args))
    split at hrun
    · obtain ⟨rfl, rfl⟩ := returns_pure.mp hrun
      refine ⟨hev.engine, fun next hnext => ?_, fun h => by cases h⟩
      cases hnext
      refine ⟨hev.tidy.substitute hargs, hreach.trans ?_⟩
      rw [hev.tidy.nameless_substitute hargs, nameless_lam]
      exact Step.beta.reaches
    · rename_i c arm fallback
      rw [returns_bind] at hrun
      obtain ⟨x, e₂, hx, hrun⟩ := hrun
      have hevx := hw _ _ _ _ hev.engine hargs hx
      obtain rfl := hevx.value trivial
      have harm : Tidy F arm := hev.tidy.part (fun _ => .arm) fun _ => .arm
      have hfall : Tidy F fallback := hev.tidy.part (fun _ => .fallback) fun _ => .fallback
      simp only at hrun
      split at hrun
      · rename_i hname
        subst hname
        rw [returns_bind] at hrun
        obtain ⟨v, e₃, hv, hrun⟩ := hrun
        obtain ⟨rfl, rfl⟩ := returns_pure.mp hrun
        obtain ⟨htidy, happly⟩ := apply_sound (g := g) harm hargs.fields
        have hevv := hw _ _ _ _ hevx.engine htidy hv
        refine ⟨hevv.engine, fun next hnext => ?_, fun h => by cases h⟩
        cases hnext
        rw [nameless_ctr] at hreach
        refine ⟨hevv.tidy, ?_⟩
        rw [nameless_ctr]
        exact hreach.trans ((Step.hit.reaches.trans happly).trans hevv.reaches)
      · rename_i hname
        obtain ⟨hengine, hsome, hnone⟩ := ih hevx.engine hfall hargs hrun
        refine ⟨hengine, fun next hnext => ?_, fun h => .mat hev.reaches hname (hnone h)⟩
        obtain ⟨htidy, hnext⟩ := hsome next hnext
        refine ⟨htidy, hreach.trans (.trans ?_ hnext)⟩
        rw [nameless_ctr]
        exact (Step.miss hname).reaches
    · obtain ⟨rfl, rfl⟩ := returns_pure.mp hrun
      exact ⟨hev.engine, by simp, fun _ => .efq hev.reaches⟩
    · rw [if_pos rfl] at hrun
      obtain ⟨rfl, rfl⟩ := returns_pure.mp hrun
      refine ⟨hev.engine, fun next hnext => ?_, fun h => by cases h⟩
      cases hnext
      exact ⟨hev.tidy.app hargs, hreach⟩

/-- **A function takes an argument.**  Without progress it is no lambda, and a match waits. -/
theorem consume_sound {gas : Nat} {function arg : Term} {e e' : Engine} {r : Option Term}
    (he : e.Tidy F g) (hf : Tidy F function) (harg : Tidy F arg)
    (hrun : Returns (consume rule gas function arg false) e r e') :
    e'.Tidy F g ∧ (∀ next, r = some next → Tidy F next ∧
      Reaches g (.App (nameless function) (nameless arg)) (nameless next)) ∧
      (r = none → (∀ name id body, function ≠ .Lam name id body) ∧
        ∀ c arm fallback, function = .Mat c arm fallback →
          Whnf g (.App (nameless function) (nameless arg))) := by
  cases gas with
  | zero => exact (returns_exhausted hrun).elim
  | succ gas =>
    rw [consume, returns_bind] at hrun
    obtain ⟨f, e₁, hfun, hrun⟩ := hrun
    have hev := hw _ _ _ _ he hf hfun
    have hreach := hev.reaches.fn (nameless arg)
    have hlam : (∀ name id body, f ≠ .Lam name id body) →
        ∀ name id body, function ≠ .Lam name id body := by
      rintro hne name id body rfl
      exact hne name id body (hev.value trivial)
    have hmat : (∀ c arm fallback, f ≠ .Mat c arm fallback) → ∀ c arm fallback,
        function = .Mat c arm fallback → Whnf g (.App (nameless function) (nameless arg)) := by
      rintro hne c arm fallback rfl
      exact absurd (hev.value trivial) (hne c arm fallback)
    split at hrun
    · obtain ⟨rfl, rfl⟩ := returns_pure.mp hrun
      refine ⟨hev.engine, fun next hnext => ?_, fun h => by cases h⟩
      cases hnext
      refine ⟨hev.tidy.substitute harg, hreach.trans ?_⟩
      rw [hev.tidy.nameless_substitute harg, nameless_lam]
      exact Step.beta.reaches
    · rename_i c arm fallback
      rw [returns_bind] at hrun
      obtain ⟨x, e₂, hx, hrun⟩ := hrun
      have hevx := hw _ _ _ _ hev.engine harg hx
      have harm : Tidy F arm := hev.tidy.part (fun _ => .arm) fun _ => .arm
      have hfall : Tidy F fallback := hev.tidy.part (fun _ => .fallback) fun _ => .fallback
      have hscrutinee := hevx.reaches.scrutinee c (nameless arm) (nameless fallback)
      split at hrun
      · rename_i d args
        have hargs := hevx.reaches
        rw [nameless_ctr] at hargs
        split at hrun
        · rename_i hname
          subst hname
          rw [returns_bind] at hrun
          obtain ⟨v, e₃, hv, hrun⟩ := hrun
          obtain ⟨rfl, rfl⟩ := returns_pure.mp hrun
          obtain ⟨htidy, happly⟩ := apply_sound (g := g) harm hevx.tidy.fields
          have hevv := hw _ _ _ _ hevx.engine htidy hv
          refine ⟨hevv.engine, fun next hnext => ?_, fun h => by cases h⟩
          cases hnext
          exact ⟨hevv.tidy, hreach.trans ((hargs.hit.trans happly).trans hevv.reaches)⟩
        · rename_i hname
          obtain ⟨hengine, hsome, hnone⟩ := consume_residual hw hevx.engine hfall hevx.tidy hrun
          refine ⟨hengine, fun next hnext => ?_, fun h => ⟨hlam (by simp), ?_⟩⟩
          · obtain ⟨htidy, hnext⟩ := hsome next hnext
            rw [nameless_ctr] at hnext
            exact ⟨htidy, hreach.trans ((hargs.miss hname).trans hnext)⟩
          · rintro c' arm' fallback' rfl
            obtain ⟨⟩ := hev.value trivial
            exact .residual hargs hname (hnone h)
      · rename_i hctr
        obtain ⟨rfl, rfl⟩ := returns_pure.mp hrun
        refine ⟨hevx.engine, by simp, fun _ => ⟨hlam (by simp), ?_⟩⟩
        rintro c' arm' fallback' rfl
        obtain ⟨⟩ := hev.value trivial
        refine .mat hevx.reaches hevx.whnf fun d args h => ?_
        obtain ⟨fields, rfl⟩ := eq_ctr_of_nameless h
        exact hctr d fields rfl
    · obtain ⟨rfl, rfl⟩ := returns_pure.mp hrun
      exact ⟨hev.engine, by simp,
        fun _ => ⟨hlam (by simp), hmat (by simp)⟩⟩
    · rename_i hnotLam hnotMat hnotEfq
      rw [if_neg (by simp)] at hrun
      obtain ⟨rfl, rfl⟩ := returns_pure.mp hrun
      exact ⟨hev.engine, by simp, fun _ => ⟨hlam hnotLam, hmat hnotMat⟩⟩

/-- **A function takes its arguments**, one after the other. -/
theorem consumeArgs_sound {gas : Nat} {result : Term} {progressed : Bool} {args : List Term}
    {e e' : Engine} {r : Term × Bool} (he : e.Tidy F g) (hf : Tidy F result)
    (hargs : ∀ a ∈ args, Tidy F a)
    (hrun : Returns (consumeArgs rule gas result progressed args) e r e') :
    e'.Tidy F g ∧ Tidy F r.1 ∧
      Reaches g ((nameless result).apps (args.map nameless)) (nameless r.1) ∧
      (r.2 = false → progressed = false ∧ r.1 = apps result args ∧
        (Whnf g (nameless result) → (nameless result).head.referenceName = none →
          Whnf g (nameless r.1))) := by
  induction args generalizing result progressed e with
  | nil =>
    obtain ⟨rfl, rfl⟩ := returns_pure.mp hrun
    exact ⟨he, hf, .refl, fun h => ⟨h, rfl, fun hnormal _ => hnormal⟩⟩
  | cons arg args ih =>
    rw [consumeArgs, returns_bind] at hrun
    obtain ⟨next, e₁, hnext, hrun⟩ := hrun
    have harg := hargs arg (List.mem_cons_self ..)
    have hrest : ∀ a ∈ args, Tidy F a := fun a ha => hargs a (List.mem_cons_of_mem _ ha)
    obtain ⟨hengine, hsome, hnone⟩ := consume_sound hw he hf harg hnext
    cases next with
    | some next =>
      obtain ⟨htidy, hreach⟩ := hsome next rfl
      obtain ⟨hengine', htidy', hreach', hstay⟩ := ih hengine htidy hrest hrun
      refine ⟨hengine', htidy', (hreach.apps _).trans hreach', fun h => ?_⟩
      exact absurd (hstay h).1 (by simp)
    | none =>
      obtain ⟨hlam, hmat⟩ := hnone rfl
      obtain ⟨hengine', htidy', hreach', hstay⟩ := ih hengine (hf.app harg) hrest hrun
      refine ⟨hengine', htidy', hreach', fun h => ?_⟩
      obtain ⟨hprogressed, heq, hwhnf⟩ := hstay h
      refine ⟨hprogressed, heq, fun hnormal hname => hwhnf ?_ hname⟩
      by_cases hmatch : ∃ c arm fallback, result = .Mat c arm fallback
      · obtain ⟨c, arm, fallback, rfl⟩ := hmatch
        exact hmat c arm fallback rfl
      · refine .app hnormal (fun b h => ?_) (fun c arm fallback h => ?_) hname
        · obtain ⟨name, id, b, rfl⟩ := eq_lam_of_nameless h
          exact hlam name id b rfl
        · obtain ⟨arm, fallback, rfl⟩ := eq_mat_of_nameless h
          exact hmatch ⟨c, arm, fallback, rfl⟩

omit hw in
/-- One constructor is reached. -/
theorem Reaches.ctr_unique (hg : g.Disjoint) {x : Nameless} {c d : String}
    {args args' : List Nameless} (h : Reaches g x (.Ctr c args)) (h' : Reaches g x (.Ctr d args')) :
    c = d ∧ args = args' := by
  have hreach : Reaches g (.Ctr c args) (.Ctr d args') := h.through hg h' trivial
  have heq := Canonical.eq_of_reaches (t := .Ctr c args) trivial hreach
  cases heq
  exact ⟨rfl, rfl⟩

omit hw in
/-- A match that a constructor decides is blocked when its arm is, or its fallback. -/
theorem Blocked.of_hit (hg : g.Disjoint) {c : String} {arm fallback x : Nameless}
    {args xs : List Nameless} (hx : Reaches g x (.Ctr c args))
    (h : Blocked g (.Mat c arm fallback) (x :: xs)) : Blocked g arm (args ++ xs) := by
  cases h with
  | stuck hx' hwhnf hctr =>
    exact absurd (hwhnf.eq_of_reaches hg (hx'.through hg hx trivial) trivial).symm (hctr _ _)
  | hit hx' h =>
    obtain ⟨-, rfl⟩ := hx'.ctr_unique hg hx
    exact h
  | miss hx' hne => exact absurd (hx'.ctr_unique hg hx).1 hne

omit hw in
/-- A match that has another constructor is blocked when its fallback is. -/
theorem Blocked.of_miss (hg : g.Disjoint) {c d : String} {arm fallback x : Nameless}
    {args xs : List Nameless} (hx : Reaches g x (.Ctr d args)) (hne : d ≠ c)
    (h : Blocked g (.Mat c arm fallback) (x :: xs)) : Blocked g fallback (.Ctr d args :: xs) := by
  cases h with
  | stuck hx' hwhnf hctr =>
    exact absurd (hwhnf.eq_of_reaches hg (hx'.through hg hx trivial) trivial).symm (hctr _ _)
  | hit hx' => exact absurd (hx'.ctr_unique hg hx).1.symm hne
  | miss hx' _ h =>
    obtain ⟨rfl, rfl⟩ := hx'.ctr_unique hg hx
    exact h

omit hw in
/-- Without a value nothing waits. -/
theorem not_blocked_nil {body : Nameless} : ¬Blocked g body [] := by
  intro h
  cases h

omit hw in
/-- A rewrite whose evidence ends in something else is not blocked. -/
theorem not_blocked_rewrite (hg : g.Disjoint) {evidence x motive body : Nameless}
    {values : List Nameless} (hx : Reaches g evidence x) (hwhnf : Whnf g x) (hne : .Rfl ≠ x) :
    ¬Blocked g (.Rwt evidence motive body) values := by
  intro h
  cases h with
  | rewrite hreach =>
    exact hne (hwhnf.eq_of_reaches hg (hx.through hg hreach trivial) trivial)

omit hw in
/-- Nor is a body that no pattern begins with. -/
theorem not_blocked_of_others {body : Term} {values : List Nameless}
    (hlam : ∀ name id b, body ≠ .Lam name id b)
    (hmat : ∀ c arm fallback, body ≠ .Mat c arm fallback) (hefq : body ≠ .Efq)
    (hann : ∀ v t, body ≠ .Ann v t) (hlet : ∀ bs b, body ≠ .Let bs b)
    (hrwt : ∀ v m b, body ≠ .Rwt v m b) : ¬Blocked g (nameless body) values := by
  intro h
  cases body with
  | Lam name id b => exact hlam name id b rfl
  | Mat c arm fallback => exact hmat c arm fallback rfl
  | Efq => exact hefq rfl
  | Ann v t => exact hann v t rfl
  | Let bs b => exact hlet bs b rfl
  | Rwt v m b => exact hrwt v m b rfl
  | _ => cases h

/-- What the patterns of a definition give, for the body and the values that are left. -/
def Patterned (F : Nat → Prop) (g : Globals) (original : Term) (extra : List Term)
    (body : Nameless) (values : List Nameless) : Flow → Prop
  | .Break v => v = original ∧ Blocked g body values
  | .Continue next => Tidy F next ∧
      Reaches g (body.apps (values ++ extra.map nameless)) (nameless next) ∧
      (g.Disjoint → ¬Blocked g body values)

section Patterns

variable {original : Term} {extra : List Term}

omit hw in
/-- A step in front. -/
theorem Patterned.before {body body' : Nameless} {values values' : List Nameless} {flow : Flow}
    (h : Patterned F g original extra body' values' flow)
    (hback : Blocked g body' values' → Blocked g body values)
    (hforth : g.Disjoint → Blocked g body values → Blocked g body' values')
    (hreach : ∀ more, Reaches g (body.apps (values ++ more)) (body'.apps (values' ++ more))) :
    Patterned F g original extra body values flow := by
  cases flow with
  | Break v => exact ⟨h.1, hback h.2⟩
  | Continue next =>
    exact ⟨h.1, (hreach _).trans h.2.1, fun hg hblocked => h.2.2 hg (hforth hg hblocked)⟩

omit hw in
/-- A lambda takes the argument. -/
theorem Patterned.lam {body x : Nameless} {xs : List Nameless} {flow : Flow}
    (h : Patterned F g original extra (body.instantiate 0 [x]) xs flow) :
    Patterned F g original extra (.Lam body) (x :: xs) flow := by
  refine h.before .lam (fun _ h => ?_) fun more => (Step.reaches .beta).apps _
  cases h with
  | lam h => exact h

omit hw in
/-- A match whose argument is a constructor of its name goes on with the fields. -/
theorem Patterned.hit {c : String} {arm fallback x : Nameless} {args xs : List Nameless}
    {flow : Flow} (hreach : Reaches g x (.Ctr c args))
    (h : Patterned F g original extra arm (args ++ xs) flow) :
    Patterned F g original extra (.Mat c arm fallback) (x :: xs) flow := by
  refine h.before (.hit hreach) (fun hg => .of_hit hg hreach) fun more => ?_
  rw [List.append_assoc, Nameless.apps_append arm]
  exact hreach.hit.apps _

omit hw in
/-- Otherwise the fallback gets the constructor. -/
theorem Patterned.miss {c d : String} {arm fallback x : Nameless} {args xs : List Nameless}
    {flow : Flow} (hreach : Reaches g x (.Ctr d args)) (hne : d ≠ c)
    (h : Patterned F g original extra fallback (.Ctr d args :: xs) flow) :
    Patterned F g original extra (.Mat c arm fallback) (x :: xs) flow :=
  h.before (.miss hreach hne) (fun hg => .of_miss hg hreach hne) fun _ =>
    (hreach.miss hne).apps _

omit hw in
theorem Patterned.ann {value ty : Nameless} {xs : List Nameless} {flow : Flow} {x : Nameless}
    (h : Patterned F g original extra value (x :: xs) flow) :
    Patterned F g original extra (.Ann value ty) (x :: xs) flow := by
  refine h.before .ann (fun _ h => ?_) fun more => (Step.reaches .ann).apps _
  cases h with
  | ann h => exact h

omit hw in
theorem Patterned.bind {quants : List Quant} {values : List Nameless} {body x : Nameless}
    {xs : List Nameless} {flow : Flow}
    (h : Patterned F g original extra (body.instantiate 0 values) (x :: xs) flow) :
    Patterned F g original extra (.Let quants values body) (x :: xs) flow := by
  refine h.before .bind (fun _ h => ?_) fun more => (Step.reaches .bind).apps _
  cases h with
  | bind h => exact h

omit hw in
/-- A rewrite whose evidence is a reflexivity is its body. -/
theorem Patterned.rewrite {evidence motive body x : Nameless} {xs : List Nameless} {flow : Flow}
    (hreach : Reaches g evidence .Rfl) (h : Patterned F g original extra body (x :: xs) flow) :
    Patterned F g original extra (.Rwt evidence motive body) (x :: xs) flow := by
  refine h.before (.rewrite hreach) (fun _ h => ?_) fun more => hreach.rewrite.apps _
  cases h with
  | rewrite _ h => exact h

omit hw in
/-- Patterns that end: the body takes everything that is left. -/
theorem Patterned.rest {body argument : Term} {pending : List PatternArgument}
    (hbody : Tidy F body) (hargument : Tidy F argument)
    (hpending : ∀ a ∈ pendingValues pending, Tidy F a) (hextra : ∀ a ∈ extra, Tidy F a)
    (hblocked : g.Disjoint →
      ¬Blocked g (nameless body) ((argument :: pendingValues pending).map nameless)) :
    Patterned F g original extra (nameless body) ((argument :: pendingValues pending).map nameless)
      (.Continue (applyRest body argument pending extra)) := by
  have hargs : ∀ a ∈ argument :: pendingValues pending ++ extra, Tidy F a := by
    intro a ha
    rcases List.mem_append.mp ha with ha | ha
    · rcases List.mem_cons.mp ha with rfl | ha
      · exact hargument
      · exact hpending a ha
    · exact hextra a ha
  obtain ⟨htidy, hreach⟩ := apply_sound (g := g) hbody hargs
  rw [List.map_append] at hreach
  exact ⟨htidy, hreach, hblocked⟩

/-- **The patterns of a definition.** -/
theorem namedPatternsInner_sound {gas : Nat} {body : Term} {pending : List PatternArgument}
    {e e' : Engine} {flow : Flow} (he : e.Tidy F g) (hbody : Tidy F body)
    (hpending : ∀ a ∈ pendingValues pending, Tidy F a) (hextra : ∀ a ∈ extra, Tidy F a)
    (hrun : Returns (namedPatternsInner rule original extra gas body pending) e flow e') :
    e'.Tidy F g ∧ Patterned F g original extra (nameless body)
      ((pendingValues pending).map nameless) flow := by
  induction gas generalizing body pending e with
  | zero => cases pending <;> exact (returns_exhausted hrun).elim
  | succ gas ih =>
    rcases pending with _ | ⟨argument | _, pending⟩
    · obtain ⟨rfl, rfl⟩ := returns_pure.mp hrun
      obtain ⟨htidy, hreach⟩ := apply_sound (g := g) hbody hextra
      exact ⟨he, htidy, hreach, fun _ => not_blocked_nil⟩
    · have hargument : Tidy F argument := hpending argument (List.mem_cons_self ..)
      have hrest : ∀ a ∈ pendingValues pending, Tidy F a :=
        fun a ha => hpending a (List.mem_cons_of_mem _ ha)
      unfold namedPatternsInner at hrun
      rw [returns_bind] at hrun
      obtain ⟨_, e₁, hstep, hrun⟩ := hrun
      obtain ⟨-, rfl⟩ := returns_step.mp hstep
      have he₁ := he.budget (e.fuel - 1) e.depth
      split at hrun
      · -- a lambda takes the argument
        obtain ⟨hengine, hflow⟩ := ih he₁ (hbody.substitute hargument) hrest hrun
        rw [hbody.nameless_substitute hargument] at hflow
        exact ⟨hengine, hflow.lam⟩
      · -- a match looks at it
        rename_i c arm fallback
        have harm : Tidy F arm := hbody.part (fun _ => .arm) fun _ => .arm
        have hfall : Tidy F fallback := hbody.part (fun _ => .fallback) fun _ => .fallback
        rw [returns_bind] at hrun
        obtain ⟨x, e₂, hx, hrun⟩ := hrun
        have hev := hw _ _ _ _ he₁ hargument hx
        split at hrun
        · rename_i d args
          have hreach := hev.reaches
          rw [nameless_ctr] at hreach
          have hfields := hev.tidy.fields
          split at hrun
          · rename_i hname
            subst hname
            simp only [returns_bind] at hrun
            obtain ⟨_, e₃, hstep, _, e₄, henter, hrun⟩ := hrun
            obtain ⟨-, rfl⟩ := returns_step.mp hstep
            obtain ⟨-, rfl⟩ := returns_enter.mp henter
            have hvalues := pendingValues_fields args pending
            obtain ⟨hengine, hflow⟩ := ih (hev.engine.budget _ _) harm
              (by
                rw [hvalues]
                exact fun a ha => (List.mem_append.mp ha).elim (hfields a) (hrest a)) hrun
            rw [hvalues, List.map_append] at hflow
            exact ⟨hengine, hflow.hit hreach⟩
          · rename_i hname
            have hvalues : ∀ a ∈ pendingValues (.Value (.Ctr d args) :: pending), Tidy F a := by
              intro a ha
              rcases List.mem_cons.mp ha with rfl | ha
              · exact hev.tidy
              · exact hrest a ha
            obtain ⟨hengine, hflow⟩ := ih hev.engine hfall hvalues hrun
            rw [pendingValues, List.map_cons, nameless_ctr] at hflow
            exact ⟨hengine, hflow.miss hreach hname⟩
        · rename_i hctr
          obtain ⟨rfl, rfl⟩ := returns_pure.mp hrun
          refine ⟨hev.engine, rfl, .stuck hev.reaches hev.whnf fun d args h => ?_⟩
          obtain ⟨fields, rfl⟩ := eq_ctr_of_nameless h
          exact hctr d fields rfl
      · obtain ⟨rfl, rfl⟩ := returns_pure.mp hrun
        exact ⟨he₁, rfl, .efq⟩
      · obtain ⟨hengine, hflow⟩ :=
          ih he₁ (hbody.part (fun _ => .value) fun _ => .value) hpending hrun
        exact ⟨hengine, hflow.ann⟩
      · obtain ⟨hengine, hflow⟩ := ih he₁ hbody.expand hpending hrun
        rw [hbody.nameless_expand] at hflow
        rw [nameless_let]
        exact ⟨hengine, hflow.bind⟩
      · rw [returns_bind] at hrun
        obtain ⟨x, e₂, hx, hrun⟩ := hrun
        have hev := hw _ _ _ _ he₁ (hbody.part (fun _ => .evidence) fun _ => .evidence) hx
        split at hrun
        · obtain ⟨hengine, hflow⟩ :=
            ih hev.engine (hbody.part (fun _ => .body) fun _ => .body) hpending hrun
          exact ⟨hengine, hflow.rewrite hev.reaches⟩
        · rename_i hrfl
          obtain ⟨rfl, rfl⟩ := returns_pure.mp hrun
          refine ⟨hev.engine, .rest hbody hargument hrest hextra fun hg => ?_⟩
          exact not_blocked_rewrite hg hev.reaches hev.whnf fun heq =>
            hrfl (eq_rfl_of_nameless heq.symm)
      · -- any other body ends the patterns
        rename_i hlam hmat hefq hann hlet hrwt
        obtain ⟨rfl, rfl⟩ := returns_pure.mp hrun
        exact ⟨he₁, .rest hbody hargument hrest hextra fun _ =>
          not_blocked_of_others hlam hmat hefq hann hlet hrwt⟩
    · rw [namedPatternsInner, returns_bind] at hrun
      obtain ⟨_, e₁, hleave, hrun⟩ := hrun
      obtain rfl := returns_leave.mp hleave
      have hflow := ih (he.budget e.fuel (e.depth - 1)) hbody (by exact hpending) hrun
      exact hflow

end Patterns

/-- One turn: the result, or where it goes on. -/
def Turned (F : Nat → Prop) (g : Globals) (value : Term) : Flow → Prop
  | .Break v => Tidy F v ∧ Reaches g (nameless value) (nameless v) ∧ Whnf g (nameless v) ∧
      (HeldCall g (nameless value) → v = value)
  | .Continue next => Tidy F next ∧ Reaches g (nameless value) (nameless next) ∧
      ¬HeldCall g (nameless value)

/-- **A call of a definition.** -/
theorem namedCall_sound {gas : Nat} {value : Term} {name : String} {definition : DefDecl}
    {e e' : Engine} {flow : Flow} (he : e.Tidy F g) (hvalue : Tidy F value)
    (hname : (nameless value).head.referenceName = some name)
    (hadt : (nameless value).arguments = [] → g.adts name = none)
    (hdef : g.defs name = some definition)
    (hrun : Returns (namedCall rule gas value definition (spine value).2) e flow e') :
    e'.Tidy F g ∧ Turned F g value flow := by
  have hargs := arguments_nameless value
  have hlen : (nameless value).arguments.length = (spine value).2.length := by simp [hargs]
  have hheld : (∀ body, definition.body = some body →
      (nameless value).arguments.length < definition.parameters.length) →
      Turned F g value (.Break value) := by
    intro hshort
    refine ⟨hvalue, .refl, .call hname hadt fun d body hd hbody => ?_, fun _ => rfl⟩
    rw [hdef] at hd
    cases hd
    exact hshort body hbody
  unfold namedCall at hrun
  split at hrun
  · rename_i body hbody
    rw [returns_ite] at hrun
    split at hrun
    · rename_i harity
      rw [← hlen] at harity
      rw [returns_bind] at hrun
      obtain ⟨copy, e₁, hcopy, hrun⟩ := hrun
      obtain ⟨he₁, htidy, hsame⟩ := he.copy hdef hbody hcopy
      simp only [namedPatterns, returns_bind, returns_get, returns_ensuring] at hrun
      obtain ⟨_, _, ⟨rfl, rfl⟩, e₂, hrun, rfl⟩ := hrun
      have hspine : ∀ a ∈ (spine value).2, Tidy F a := (tidy_spineGo hvalue (by simp)).2
      have hvalues :
          pendingValues (((spine value).2.take definition.parameters.length).map .Value) =
            (spine value).2.take definition.parameters.length := pendingValues_map _
      obtain ⟨hengine, hflow⟩ := namedPatternsInner_sound hw he₁ htidy
        (by rw [hvalues]; exact fun a ha => hspine a (List.mem_of_mem_take ha))
        (fun a ha => hspine a (List.mem_of_mem_drop ha)) hrun
      rw [hvalues, List.map_take, ← hargs, hsame] at hflow
      refine ⟨hengine.budget _ _, ?_⟩
      cases flow with
      | Break v =>
        obtain ⟨rfl, hblocked⟩ := hflow
        exact ⟨hvalue, .refl, .blocked hname hdef hbody harity hblocked, fun _ => rfl⟩
      | Continue next =>
        obtain ⟨htidy, hreach, hopen⟩ := hflow
        rw [List.map_drop, ← hargs, List.take_append_drop] at hreach
        refine ⟨htidy, (Reaches.unfold hname hdef hbody harity).trans hreach, fun hcall => ?_⟩
        rcases hcall with ⟨d, hd, hshort⟩ | ⟨hg, d, body', hd, hbody', -, hblocked⟩
        · obtain rfl := hd.unique hname hdef
          omega
        · obtain rfl := hd.unique hname hdef
          rw [hbody] at hbody'
          cases hbody'
          exact hopen hg hblocked
    · rename_i hshort
      obtain ⟨rfl, rfl⟩ := returns_pure.mp hrun
      exact ⟨he, hheld fun _ _ => by omega⟩
  · rename_i hnone
    obtain ⟨rfl, rfl⟩ := returns_pure.mp hrun
    exact ⟨he, hheld fun body hbody => by rw [hnone] at hbody; cases hbody⟩

omit hw in
theorem not_heldCall {t : Nameless} (h : t.head.referenceName = none) : ¬HeldCall g t := by
  intro hcall
  obtain ⟨d, hd⟩ := hcall.calls
  obtain ⟨name, hname, -⟩ := hd.called
  rw [h] at hname
  cases hname

/-- **Applications and references.** -/
theorem whnfSpine_sound {gas : Nat} {value : Term} {e e' : Engine} {flow : Flow}
    (he : e.Tidy F g) (hvalue : Tidy F value)
    (hshape : (spine value).2 ≠ [] ∨ ∃ name, referenceName value = some name ∧ g.adts name = none)
    (hrun : Returns (whnfSpine rule gas value) e flow e') :
    e'.Tidy F g ∧ Turned F g value flow := by
  unfold whnfSpine at hrun
  split at hrun
  · rename_i name href
    have hname := (callName_nameless value).trans href
    have hadt : (nameless value).arguments = [] → g.adts name = none := by
      intro hnil
      rw [arguments_nameless, List.map_eq_nil_iff] at hnil
      obtain ⟨name', hname', hnone⟩ := hshape.resolve_left (fun h => h hnil)
      have hself := Nameless.head_of_reference ((referenceName_nameless value).trans hname')
      rw [hself.1, referenceName_nameless, hname'] at hname
      cases hname
      exact hnone
    simp only [returns_bind, returns_get] at hrun
    obtain ⟨_, _, ⟨rfl, rfl⟩, hrun⟩ := hrun
    have hdefs : e.defs name = g.defs name := by rw [← he.globals]; rfl
    rw [hdefs] at hrun
    split at hrun
    · rename_i definition hdef
      exact namedCall_sound hw he hvalue hname hadt hdef hrun
    · rename_i hnone
      obtain ⟨rfl, rfl⟩ := returns_pure.mp hrun
      refine ⟨he, hvalue, .refl, .call hname hadt fun d _ hd => ?_, fun _ => rfl⟩
      rw [hnone] at hd
      cases hd
  · rename_i href
    have hhead : (nameless value).head.referenceName = none := (callName_nameless value).trans href
    rw [returns_ite] at hrun
    split at hrun
    · rename_i hempty
      have hnil : (spine value).2 = [] := by simpa using hempty
      obtain ⟨name, hname, -⟩ := hshape.resolve_left (fun h => h hnil)
      have hself := apps_spine value
      rw [hnil, apps_nil] at hself
      rw [hself, hname] at href
      cases href
    · simp only [returns_bind] at hrun
      obtain ⟨head, e₁, hhd, ⟨result, progressed⟩, e₂, hargs, hrun⟩ := hrun
      obtain ⟨htidyHead, htidyArgs⟩ :=
        (tidy_spineGo hvalue (by simp) : Tidy F (spine value).1 ∧ ∀ a ∈ (spine value).2, Tidy F a)
      have hev := hw _ _ _ _ he htidyHead hhd
      obtain ⟨hengine, htidy, hreach, hstay⟩ :=
        consumeArgs_sound hw hev.engine hev.tidy htidyArgs hargs
      have hall : Reaches g (nameless value) (nameless result) := by
        conv => lhs; rw [← apps_spine value, nameless_apps]
        exact (hev.reaches.apps _).trans hreach
      rw [returns_ite] at hrun
      split at hrun
      · obtain ⟨rfl, rfl⟩ := returns_pure.mp hrun
        exact ⟨hengine, htidy, hall, not_heldCall hhead⟩
      · rename_i hstop
        obtain ⟨rfl, rfl⟩ := returns_pure.mp hrun
        simp only [Bool.or_eq_true, not_or, Bool.not_eq_true, Option.isSome_eq_false_iff,
          Option.isNone_iff_eq_none] at hstop
        obtain ⟨-, heq, hwhnf⟩ := hstay hstop.1
        replace heq : result = apps head (spine value).2 := heq
        have hname : (nameless head).head.referenceName = none := by
          have hcall := callName_nameless result
          rw [hstop.2] at hcall
          rw [← hcall, heq, nameless_apps, Nameless.head_apps]
        exact ⟨hengine, htidy, hall, hwhnf hev.whnf hname, fun h => absurd h (not_heldCall hhead)⟩

omit hw in
/-- Two quantities after both are evaluated. -/
theorem minOf_sound {a b : Term} (ha : Tidy F a) (hb : Tidy F b) (hwa : Whnf g (nameless a))
    (hwb : Whnf g (nameless b)) (hnone : a ≠ .Qua .None) (hmany : a ≠ .Qua .Many) :
    Tidy F (minOf a b) ∧ Reaches g (.Min (nameless a) (nameless b)) (nameless (minOf a b)) ∧
      Whnf g (nameless (minOf a b)) := by
  unfold minOf
  split
  · exact ⟨hb, (Step.meet .rightNone).reaches, hwb⟩
  · rename_i q
    have hq : q = .Lone := by
      cases q with
      | None => exact absurd rfl hnone
      | Lone => rfl
      | Many => exact absurd rfl hmany
    subst hq
    exact ⟨hb, (Step.meet .lone).reaches, hwb⟩
  · exact ⟨ha, (Step.meet .rightMany).reaches, hwa⟩
  · rename_i hrightNone hrightMany hlone
    refine ⟨ha.min hb, .refl, .min hwa hwb
      fun c (hmeet : Meet (nameless a) (nameless b) c) => ?_⟩
    generalize hna : nameless a = na at hmeet
    generalize hnb : nameless b = nb at hmeet
    cases hmeet with
    | leftNone => exact hnone (eq_qua_of_nameless hna)
    | leftMany => exact hmany (eq_qua_of_nameless hna)
    | rightNone => exact hrightNone (eq_qua_of_nameless hnb)
    | rightMany => exact hrightMany (eq_qua_of_nameless hnb)
    | lone => exact hlone _ (eq_qua_of_nameless hna) (eq_qua_of_nameless hnb)

/-- A reference that is written alone. -/
theorem reference_sound {gas : Nat} {value : Term} {name : String} {e e' : Engine} {flow : Flow}
    (he : e.Tidy F g) (hvalue : Tidy F value) (href : referenceName value = some name)
    (hrun : Returns (do
      match (← get).adts name with
      | some adt => return .Break (if adt.parameters.isEmpty then .Adt name [] [] else value)
      | none => whnfSpine rule gas value) e flow e') :
    e'.Tidy F g ∧ Turned F g value flow := by
  have hname := (referenceName_nameless value).trans href
  simp only [returns_bind, returns_get] at hrun
  obtain ⟨_, _, ⟨rfl, rfl⟩, hrun⟩ := hrun
  have hadts : e.adts name = g.adts name := by rw [← he.globals]; rfl
  rw [hadts] at hrun
  split at hrun
  · rename_i adt hadt
    obtain ⟨rfl, rfl⟩ := returns_pure.mp hrun
    have hcall : ¬HeldCall g (nameless value) := by
      intro hcall
      obtain ⟨d, hd⟩ := hcall.calls
      obtain ⟨name', hname', hnone, -⟩ := hd.called
      obtain ⟨hhead, hargs⟩ := Nameless.head_of_reference hname
      rw [hhead, hname] at hname'
      cases hname'
      rw [hnone hargs] at hadt
      cases hadt
    refine ⟨he, ?_⟩
    split
    · rename_i hempty
      refine ⟨⟨fun id h => ?_, fun id h => ?_⟩, ?_, .canonical trivial, fun h => absurd h hcall⟩
      · cases h with
        | adt ha => cases ha
      · cases h with
        | adt ha => cases ha
      · exact (Step.datatype hname hadt (by simpa using hempty)).reaches
    · rename_i hempty
      exact ⟨hvalue, .refl, .datatype hname hadt (by simpa using hempty), fun _ => rfl⟩
  · rename_i hnone
    exact whnfSpine_sound hw he hvalue (.inr ⟨name, href, hnone⟩) hrun

/-- **One turn of the loop.** -/
theorem whnfTurn_sound {gas : Nat} {value : Term} {e e' : Engine} {flow : Flow}
    (he : e.Tidy F g) (hvalue : Tidy F value) (hrun : Returns (whnfTurn rule gas value) e flow e') :
    e'.Tidy F g ∧ Turned F g value flow ∧ (IsValue value → flow = .Break value) := by
  have hstay : (nameless value).Canonical → Turned F g value (.Break value) := fun h =>
    ⟨hvalue, .refl, .canonical h, fun _ => rfl⟩
  cases value with
  | Lam | Mat | Ctr =>
    obtain ⟨rfl, rfl⟩ := returns_pure.mp hrun
    exact ⟨he, hstay trivial, fun _ => rfl⟩
  | Typ | Qnt | Qua | All | Adt | Efq | Eql | Rfl | Hole =>
    obtain ⟨rfl, rfl⟩ := returns_pure.mp hrun
    exact ⟨he, hstay trivial, fun _ => rfl⟩
  | Var name id =>
    simp only [whnfTurn, returns_bind, returns_get] at hrun
    obtain ⟨_, _, ⟨rfl, rfl⟩, hrun⟩ := hrun
    have haliases : e.aliases id = g.aliases id := by rw [← he.globals]; rfl
    rw [haliases] at hrun
    refine ⟨?_, ?_, fun h => h.elim⟩
    · split at hrun <;> (obtain ⟨-, rfl⟩ := returns_pure.mp hrun; exact he)
    · split at hrun
      · rename_i replacement halias
        obtain ⟨rfl, rfl⟩ := returns_pure.mp hrun
        exact ⟨he.aliases id _ halias, (Step.aliased halias).reaches, not_heldCall rfl⟩
      · rename_i hnone
        obtain ⟨rfl, rfl⟩ := returns_pure.mp hrun
        exact ⟨hvalue, .refl, .free hnone, fun _ => rfl⟩
  | Ann v ty =>
    obtain ⟨rfl, rfl⟩ := returns_pure.mp hrun
    exact ⟨he, ⟨hvalue.part (fun _ => .value) fun _ => .value, (Step.reaches .ann),
      not_heldCall rfl⟩, fun h => h.elim⟩
  | Let bindings body =>
    obtain ⟨rfl, rfl⟩ := returns_pure.mp hrun
    refine ⟨he, ⟨hvalue.expand, ?_, not_heldCall rfl⟩, fun h => h.elim⟩
    rw [hvalue.nameless_expand, nameless_let]
    exact Step.reaches .bind
  | Min a b =>
    have ha : Tidy F a := hvalue.part (fun _ => .minL) fun _ => .minL
    have hb : Tidy F b := hvalue.part (fun _ => .minR) fun _ => .minR
    rw [whnfTurn, returns_bind] at hrun
    obtain ⟨a', e₁, hra, hrun⟩ := hrun
    have heva := hw _ _ _ _ he ha hra
    have hleft := heva.reaches.min (.refl : Reaches g (nameless b) (nameless b))
    have hheld : ¬HeldCall g (nameless (.Min a b)) := not_heldCall rfl
    split at hrun
    · obtain ⟨rfl, rfl⟩ := returns_pure.mp hrun
      refine ⟨heva.engine, ⟨heva.tidy, ?_, heva.whnf, fun h => absurd h hheld⟩, fun h => h.elim⟩
      exact hleft.tail (.meet .leftNone)
    · obtain ⟨rfl, rfl⟩ := returns_pure.mp hrun
      exact ⟨heva.engine, ⟨hb, hleft.tail (.meet .leftMany), hheld⟩, fun h => h.elim⟩
    · rename_i hnone hmany
      rw [returns_bind] at hrun
      obtain ⟨b', e₂, hrb, hrun⟩ := hrun
      obtain ⟨rfl, rfl⟩ := returns_pure.mp hrun
      have hevb := hw _ _ _ _ heva.engine hb hrb
      obtain ⟨htidy, hreach, hwhnf⟩ :=
        minOf_sound heva.tidy hevb.tidy heva.whnf hevb.whnf hnone hmany
      refine ⟨hevb.engine, ⟨htidy, ?_, hwhnf, fun h => absurd h hheld⟩, fun h => h.elim⟩
      exact (heva.reaches.min hevb.reaches).trans hreach
  | Rwt v m b =>
    rw [whnfTurn, returns_bind] at hrun
    obtain ⟨v', e₁, hrv, hrun⟩ := hrun
    have hev := hw _ _ _ _ he (hvalue.part (fun _ => .evidence) fun _ => .evidence) hrv
    refine ⟨?_, ?_, fun h => h.elim⟩
    · split at hrun <;> (obtain ⟨-, rfl⟩ := returns_pure.mp hrun; exact hev.engine)
    · split at hrun
      · obtain ⟨rfl, rfl⟩ := returns_pure.mp hrun
        exact ⟨hvalue.part (fun _ => .body) fun _ => .body, hev.reaches.rewrite,
          not_heldCall rfl⟩
      · rename_i hrfl
        obtain ⟨rfl, rfl⟩ := returns_pure.mp hrun
        exact ⟨hvalue, .refl, .rewrite hev.reaches hev.whnf fun h => hrfl (eq_rfl_of_nameless h),
          fun _ => rfl⟩
  | Ref name =>
    obtain ⟨hengine, hturned⟩ := reference_sound hw he hvalue rfl hrun
    exact ⟨hengine, hturned, fun h => h.elim⟩
  | GpuRef name =>
    obtain ⟨hengine, hturned⟩ := reference_sound hw he hvalue rfl hrun
    exact ⟨hengine, hturned, fun h => h.elim⟩
  | App f x =>
    have hargs : (spine (.App f x)).2 ≠ [] := by
      intro hnil
      have hlen := congrArg List.length (arguments_nameless (.App f x))
      rw [hnil] at hlen
      simp [Nameless.arguments] at hlen
    obtain ⟨hengine, hturned⟩ := whnfSpine_sound hw he hvalue (.inl hargs) hrun
    exact ⟨hengine, hturned, fun h => h.elim⟩

/-- **Every turn keeps to the rules.** -/
theorem whnfInner_sound {gas turns : Nat} {value v : Term} {e e' : Engine}
    (he : e.Tidy F g) (hvalue : Tidy F value)
    (hrun : Returns (whnfInner rule gas turns value) e v e') : Evaluates F g e' value v := by
  induction turns generalizing value e with
  | zero => exact (returns_exhausted hrun).elim
  | succ turns ih =>
    rw [whnfInner, returns_bind] at hrun
    obtain ⟨flow, e₁, hturn, hrun⟩ := hrun
    obtain ⟨hengine, hturned, hvalues⟩ := whnfTurn_sound hw he hvalue hturn
    cases flow with
    | Break result =>
      obtain ⟨rfl, rfl⟩ := returns_pure.mp hrun
      obtain ⟨htidy, hreach, hwhnf, hheld⟩ := hturned
      refine ⟨hengine, htidy, hreach, hwhnf, fun h => ?_, hheld⟩
      cases hvalues h
      rfl
    | Continue next =>
      obtain ⟨htidy, hreach, hheld⟩ := hturned
      simp only [returns_bind] at hrun
      obtain ⟨_, e₂, hstep, hrun⟩ := hrun
      obtain ⟨-, rfl⟩ := returns_step.mp hstep
      have hev := ih (hengine.budget _ _) htidy hrun
      refine ⟨hev.engine, hev.tidy, hreach.trans hev.reaches, hev.whnf, fun h => ?_, fun h => ?_⟩
      · cases hvalues h
      · exact absurd h hheld

end Whnf

/-- **`whnf` evaluates.** -/
theorem sound_whnf {F : Nat → Prop} {g : Globals} (gas : Nat) : Sound F g (whnf gas) := by
  induction gas with
  | zero => exact fun _ _ _ _ _ _ hrun => (returns_exhausted hrun).elim
  | succ gas ih =>
    intro e t v e' he ht hrun
    rw [whnf, returns_charged] at hrun
    obtain ⟨-, -, e₁, hrun, rfl⟩ := hrun
    have hev := whnfInner_sound ih (he.budget _ _) ht hrun
    exact ⟨hev.engine.budget e₁.fuel (e₁.depth - 1), hev.tidy, hev.reaches, hev.whnf, hev.value,
      hev.held⟩

/-! ## 4. The input -/

/-- `id` is free in the input, in an alias or in a definition. -/
def Engine.Free (e : Engine) (t : Term) (id : Nat) : Prop :=
  FreeIn id t ∨ (∃ x u, e.aliases x = some u ∧ FreeIn id u) ∨
    ∃ name definition body, e.defs name = some definition ∧ definition.body = some body ∧
      FreeIn id body

/-- The fresh counter exceeds every number in the input, the aliases and the definitions. -/
structure Engine.Fresh (e : Engine) (t : Term) : Prop where
  input : Below e.freshId t
  aliases : ∀ x u, e.aliases x = some u → x < e.freshId ∧ Below e.freshId u
  defs : ∀ name definition, e.defs name = some definition →
    Below e.freshId definition.ty ∧ (∀ body, definition.body = some body → Below e.freshId body) ∧
      ∀ b ∈ definition.parameters, b.id < e.freshId ∧ Below e.freshId b.ty

/-- No number that is free somewhere is bound in the input or in an alias. -/
structure Engine.Apart (e : Engine) (t : Term) : Prop where
  input : ∀ id, BoundIn id t → ¬e.Free t id
  aliases : ∀ x u, e.aliases x = some u → ∀ id, BoundIn id u → ¬e.Free t id

/-- A term whose binders are fresh and apart may be evaluated. -/
theorem Engine.Fresh.tidy {e : Engine} {t : Term} (h : e.Fresh t) (hapart : e.Apart t) :
    e.Tidy (e.Free t) e.globals where
  globals := rfl
  below id hid := by
    rcases hid with hid | ⟨x, u, hu, hid⟩ | ⟨name, definition, body, hdef, hbody, hid⟩
    · exact h.input id (.inl hid)
    · exact (h.aliases x u hu).2 id (.inl hid)
    · exact (h.defs name definition hdef).2.1 body hbody id (.inl hid)
  aliases x u hu := ⟨fun _ hid => .inr (.inl ⟨x, u, hu, hid⟩), hapart.aliases x u hu⟩
  defs name definition body hdef hbody :=
    ⟨(h.defs name definition hdef).2.1 body hbody,
      fun _ hid => .inr (.inr ⟨name, definition, body, hdef, hbody, hid⟩)⟩

/-- **Weak head reduction is sound.**  The result is reached by the rules and no rule is left at
its head; its free variables were free before; and a call that has too few arguments or is blocked
is returned as it is. -/
theorem whnf_sound {gas : Nat} {e e' : Engine} {t v : Term} (hfresh : e.Fresh t)
    (hapart : e.Apart t) (hrun : Returns (whnf gas t) e v e') :
    Reaches e.globals (nameless t) (nameless v) ∧ Whnf e.globals (nameless v) ∧
      (∀ id, FreeIn id v → e.Free t id) ∧
      (Underapplied e.globals (nameless t) → v = t) ∧
      (e.globals.Disjoint → BlockedCall e.globals (nameless t) → v = t) ∧
      (e.globals.Disjoint → ∀ u, Reaches e.globals (nameless v) u → u.Canonical →
        u = nameless v) := by
  have htidy : Tidy (e.Free t) t := ⟨fun _ hid => .inl hid, hapart.input⟩
  have hev := sound_whnf gas _ _ _ _ (hfresh.tidy hapart) htidy hrun
  exact ⟨hev.reaches, hev.whnf, hev.tidy.free, fun h => hev.held (.inl h),
    fun hg h => hev.held (.inr ⟨hg, h⟩), fun hg _ hu hcanonical =>
      hev.whnf.eq_of_reaches hg hu hcanonical⟩

/-! ### A loose engine -/

/-- The declarations that no checked book has: an open definition `f`, and a name `n` that is a
definition and a datatype. -/
def looseDefs (name : String) : Option DefDecl :=
  if name = "f" then some ⟨"f", [], none, .Qnt, some (.Var "z" 0), false, false⟩
  else if name = "n" then
    some ⟨"n", [], none, .Qnt, some .Rfl, false, false⟩
  else if name = "g" then
    some ⟨"g", [⟨.Lone, "x", 1, .Qnt⟩], none, .Qnt,
      some (.Rwt (.Ref "n") .Qnt .Efq), false, false⟩
  else none

def looseEngine : Engine where
  defs := looseDefs
  adts name := if name = "n" then some ⟨"n", [], .Typ (.Qua .Lone), []⟩ else none
  named := by
    intro name adt h
    split at h
    · cases h
      exact Eq.symm ‹_›
    · cases h
  aliases _ := none
  foreignContracts _ := false
  numericContracts _ := false
  opaqueContracts _ := false
  freshId := 3
  fuel := 40
  depth := 0
  pointers := .distinct
  display _ := ""

/-- The constant function of a variable, `(λx. λy. x)(y)`. -/
def constantOf (id : Nat) : Term :=
  .App (.Lam "x" 1 (.Lam "y" 2 (.Var "x" 1))) (.Var "y" id)

/-- The call `g(B)`. -/
def looseCall : Term := .App (.Ref "g") (.Ctr "B" [])

theorem freeIn_constantOf {x id : Nat} : FreeIn x (constantOf id) ↔ x = id := by
  simp only [constantOf, freeIn_app, freeIn_lam, freeIn_var]
  omega

theorem boundIn_constantOf {x id : Nat} : BoundIn x (constantOf id) ↔ x = 1 ∨ x = 2 := by
  simp [constantOf, boundIn_app, boundIn_lam]

theorem not_freeIn_looseCall (x : Nat) : ¬FreeIn x looseCall := by
  simp [looseCall, freeIn_app, freeIn_ctr, not_freeIn_ref]

theorem not_boundIn_looseCall (x : Nat) : ¬BoundIn x looseCall := by
  simp [looseCall, boundIn_app, boundIn_ctr, not_boundIn_ref]

theorem below_qnt {n : Nat} : Below n .Qnt := by
  rintro x (hx | hx)
  · exact absurd hx not_freeIn_qnt
  · exact absurd hx not_boundIn_qnt

/-- Every number of the declarations is below 3. -/
theorem fresh_looseEngine {t : Term} (h : Below 3 t) : looseEngine.Fresh t where
  input := h
  aliases x u hu := by cases hu
  defs name definition hdef := by
    have hparameter : ∀ id, id < 3 → id < looseEngine.freshId ∧ Below looseEngine.freshId .Qnt :=
      fun id hid => ⟨hid, below_qnt⟩
    simp only [looseEngine, looseDefs] at hdef
    split at hdef
    · cases hdef
      refine ⟨below_qnt, fun body hbody => ?_, by simp⟩
      cases hbody
      exact below_var (by decide)
    · split at hdef
      · cases hdef
        refine ⟨below_qnt, fun body hbody => ?_, by simp⟩
        cases hbody
        intro x hx
        simp [not_freeIn_rfl, not_boundIn_rfl] at hx
      · split at hdef
        · cases hdef
          refine ⟨below_qnt, fun body hbody => ?_, by simpa using hparameter 1 (by decide)⟩
          cases hbody
          intro x hx
          simp [freeIn_rwt, boundIn_rwt, not_freeIn_efq, not_boundIn_efq, not_freeIn_ref,
            not_boundIn_ref, not_freeIn_qnt, not_boundIn_qnt] at hx
        · cases hdef

theorem below_constantOf {id : Nat} (h : id < 3) : Below 3 (constantOf id) := by
  intro x hx
  rw [freeIn_constantOf, boundIn_constantOf] at hx
  omega

/-- The numbers of a constant function. -/
def constantNumbers : Term → Option (Nat × Nat)
  | .Lam _ x (.Var _ y) => some (x, y)
  | _ => none

/-- The number of a variable. -/
def variableNumber : Term → Option Nat
  | .Var _ x => some x
  | _ => none

/-- Whether a term applies a rewrite. -/
def isRwt : Term → Bool
  | .App (.Rwt ..) _ => true
  | _ => false

/-- The constant function of a variable, evaluated. -/
theorem returns_constantOf {id : Nat} (h : id = 0 ∨ id = 2) :
    ∃ v e', Returns (whnf 5 (constantOf id)) looseEngine v e' ∧
      nameless v = .Lam (strip (Scope.free.push 2) (.Var "" id)) := by
  have hrun : ((result (whnf 5 (constantOf id)) looseEngine).map constantNumbers) =
      some (some (2, id)) := by
    rcases h with rfl | rfl <;> decide +kernel
  obtain ⟨v, e', hv, hnumbers⟩ := returns_of_result hrun
  refine ⟨v, e', hv, ?_⟩
  unfold constantNumbers at hnumbers
  split at hnumbers
  · cases hnumbers
    rfl
  · cases hnumbers

/-- The free variables of the example. -/
theorem free_looseEngine {t : Term} {id : Nat} (h : looseEngine.Free t id) :
    FreeIn id t ∨ id = 0 := by
  rcases h with h | ⟨x, u, hu, -⟩ | ⟨name, definition, body, hdef, hbody, h⟩
  · exact .inl h
  · cases hu
  · simp only [looseEngine, looseDefs] at hdef
    split at hdef
    · cases hdef
      cases hbody
      exact .inr (freeIn_var.mp h)
    · split at hdef
      · cases hdef
        cases hbody
        simp [not_freeIn_rfl] at h
      · split at hdef
        · cases hdef
          cases hbody
          simp [freeIn_rwt, not_freeIn_efq, not_freeIn_ref, not_freeIn_qnt] at h
        · cases hdef

/-- `(λx. λy. x)(z)` is `λy. z`. -/
theorem whnf_sound_constant :
    Reaches looseEngine.globals (nameless (constantOf 0)) (.Lam (.free 0)) := by
  have hfresh := fresh_looseEngine (below_constantOf (show 0 < 3 by decide))
  have hapart : looseEngine.Apart (constantOf 0) := by
    refine ⟨fun id hid hfree => ?_, fun x u hu => by cases hu⟩
    rw [boundIn_constantOf] at hid
    have hzero := free_looseEngine hfree
    rw [freeIn_constantOf] at hzero
    omega
  obtain ⟨v, e', hrun, hv⟩ := returns_constantOf (.inl rfl)
  have hreach := (whnf_sound hfresh hapart hrun).1
  rw [hv] at hreach
  exact hreach

/-- **Three ways out.**  A bound variable captures a free one, an open definition brings in a
variable, and a call stays no call when its body reads a name as two things. -/
theorem whnf_captures :
    (∃ v e', looseEngine.Fresh (constantOf 2) ∧ Returns (whnf 5 (constantOf 2)) looseEngine v e' ∧
      ¬Reaches looseEngine.globals (nameless (constantOf 2)) (nameless v)) ∧
    (∃ v e', looseEngine.Fresh (.Ref "f") ∧ Returns (whnf 5 (.Ref "f")) looseEngine v e' ∧
      ∃ id, FreeIn id v ∧ ¬FreeIn id (.Ref "f") ∧
        ¬∃ x u, looseEngine.aliases x = some u ∧ FreeIn id u) ∧
    ∃ v e', looseEngine.Fresh looseCall ∧ Returns (whnf 4 looseCall) looseEngine v e' ∧
      BlockedCall looseEngine.globals (nameless looseCall) ∧ v ≠ looseCall := by
  refine ⟨?_, ?_, ?_⟩
  · obtain ⟨v, e', hrun, hv⟩ := returns_constantOf (show 2 = 0 ∨ 2 = 2 from .inr rfl)
    refine ⟨v, e', fresh_looseEngine (below_constantOf (by decide)), hrun, fun hreach => ?_⟩
    -- the only step is the contraction, and its result is the constant function of the free one
    have hshape : nameless (constantOf 2) = .App (.Lam (.Lam (.bound 1))) (.free 2) := rfl
    rw [hv, hshape] at hreach
    rcases Relation.ReflTransGen.cases_head hreach with heq | ⟨u, hstep, hrest⟩
    · cases heq
    · cases hstep with
      | beta => cases Canonical.eq_of_reaches (by exact trivial) hrest
      | unfold hname => simp [Nameless.head, Nameless.referenceName] at hname
      | datatype hname => simp [Nameless.referenceName] at hname
      | fn h => exact Canonical.stuck (by exact trivial) h
  · have hrun : (result (whnf 5 (.Ref "f")) looseEngine).map variableNumber = some (some 0) := by
      decide +kernel
    obtain ⟨v, e', hv, hnumber⟩ := returns_of_result hrun
    refine ⟨v, e', fresh_looseEngine ?_, hv, 0, ?_, not_freeIn_ref, ?_⟩
    · rintro x (hx | hx)
      · exact absurd hx not_freeIn_ref
      · exact absurd hx not_boundIn_ref
    · unfold variableNumber at hnumber
      split at hnumber
      · cases hnumber
        exact .var
      · cases hnumber
    · rintro ⟨x, u, hu, -⟩
      cases hu
  · have hrun : (result (whnf 4 looseCall) looseEngine).map isRwt = some true := by decide +kernel
    obtain ⟨v, e', hv, hrwt⟩ := returns_of_result hrun
    refine ⟨v, e', fresh_looseEngine ?_, hv, ?_, ?_⟩
    · rintro x (hx | hx)
      · exact absurd hx (not_freeIn_looseCall x)
      · exact absurd hx (not_boundIn_looseCall x)
    · refine ⟨_, _, ⟨"g", rfl, (fun h => by cases h), rfl⟩, rfl, Nat.le_refl 1, ?_⟩
      have hstep : Step looseEngine.globals ((Nameless.Ref "n").apps [])
          ((nameless .Rfl).apps []) := .call rfl rfl rfl rfl
      have hrfl : Reaches looseEngine.globals (.Ref "n") .Rfl := Step.reaches hstep
      have hblocked : Blocked looseEngine.globals (.Rwt (.Ref "n") .Qnt .Efq) [.Ctr "B" []] :=
        .rewrite hrfl .efq
      exact hblocked
    · rintro rfl
      simp [isRwt, looseCall] at hrwt

end TeamyBend.Kernel
