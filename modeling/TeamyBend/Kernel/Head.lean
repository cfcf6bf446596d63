/-
# Weak head reduction

The steps that `whnf` takes at the head of a closed application: contract a lambda, choose the arm
or the fallback of a match, expand a `let`, drop an annotation, drop a rewrite by reflexivity.
Definitions of the book are not unfolded here.

A match waits for its argument to be a constructor, as `consume` does, and an arm is applied to the
fields one after the other.  `Efq` has no step.  The steps are deterministic, so what a term can
reach is a line, and a term that reaches a stuck one reaches no other.
-/
import TeamyBend.Kernel.Names
import Mathlib.Logic.Relation

namespace TeamyBend.Kernel

/-! ## 1. Steps -/

/-- An application to some arguments, with nothing contracted. -/
def apps (f : Term) (args : List Term) : Term := args.foldl .App f

@[simp] theorem apps_nil (f : Term) : apps f [] = f := rfl

@[simp] theorem apps_cons (f x : Term) (args : List Term) :
    apps f (x :: args) = apps (.App f x) args := rfl

theorem apps_append (f : Term) (args more : List Term) :
    apps f (args ++ more) = apps (apps f args) more := List.foldl_append

@[simp] theorem subst_apps (ρ : Env) (f : Term) (args : List Term) :
    subst ρ (apps f args) = apps (subst ρ f) (args.map (subst ρ)) := by
  induction args generalizing f with
  | nil => rfl
  | cons x args ih => simpa [subst] using ih (.App f x)

/-- **One weak head step.** -/
inductive HeadStep : Term → Term → Prop where
  | beta {name : String} {id : Nat} {body x : Term} :
      HeadStep (.App (.Lam name id body) x) (substitute id x body)
  | hit {c : String} {arm fallback : Term} {args : List Term} :
      HeadStep (.App (.Mat c arm fallback) (.Ctr c args)) (apps arm args)
  | miss {c d : String} {arm fallback : Term} {args : List Term} (h : d ≠ c) :
      HeadStep (.App (.Mat c arm fallback) (.Ctr d args)) (.App fallback (.Ctr d args))
  | bind {bindings : List (LetBinding Term)} {body : Term} :
      HeadStep (.Let bindings body) (expand bindings body)
  | ann {value ty : Term} : HeadStep (.Ann value ty) value
  | rewrite {motive body : Term} : HeadStep (.Rwt .Rfl motive body) body
  | fn {f f' x : Term} (h : HeadStep f f') : HeadStep (.App f x) (.App f' x)
  | scrutinee {c : String} {arm fallback x x' : Term} (h : HeadStep x x') :
      HeadStep (.App (.Mat c arm fallback) x) (.App (.Mat c arm fallback) x')
  | evidence {e e' motive body : Term} (h : HeadStep e e') :
      HeadStep (.Rwt e motive body) (.Rwt e' motive body)

/-- **At most one step is possible.** -/
theorem HeadStep.unique {t u v : Term} (hu : HeadStep t u) (hv : HeadStep t v) : u = v := by
  induction hu generalizing v with
  | beta =>
    cases hv with
    | beta => rfl
    | fn h => cases h
  | hit =>
    cases hv with
    | hit => rfl
    | miss h => exact absurd rfl h
    | fn h => cases h
    | scrutinee h => cases h
  | miss hne =>
    cases hv with
    | hit => exact absurd rfl hne
    | miss => rfl
    | fn h => cases h
    | scrutinee h => cases h
  | bind => cases hv; rfl
  | ann => cases hv; rfl
  | rewrite =>
    cases hv with
    | rewrite => rfl
    | evidence h => cases h
  | fn h ih =>
    cases hv with
    | beta => cases h
    | hit => cases h
    | miss => cases h
    | fn h' => rw [ih h']
    | scrutinee => cases h
  | scrutinee h ih =>
    cases hv with
    | hit => cases h
    | miss => cases h
    | fn h' => cases h'
    | scrutinee h' => rw [ih h']
  | evidence h ih =>
    cases hv with
    | rewrite => cases h
    | evidence h' => rw [ih h']

/-! ## 2. Runs -/

/-- Any number of steps. -/
abbrev Steps : Term → Term → Prop := Relation.ReflTransGen HeadStep

theorem Steps.trans {t u v : Term} (h : Steps t u) (h' : Steps u v) : Steps t v :=
  Relation.ReflTransGen.trans h h'

theorem HeadStep.steps {t u : Term} (h : HeadStep t u) : Steps t u := .single h

theorem Steps.app {f f' x : Term} (h : Steps f f') : Steps (.App f x) (.App f' x) := by
  induction h with
  | refl => exact .refl
  | tail _ hstep ih => exact ih.tail (.fn hstep)

/-- The head of an application may run. -/
theorem Steps.apps {f f' : Term} (h : Steps f f') (args : List Term) :
    Steps (apps f args) (apps f' args) := by
  induction args generalizing f f' with
  | nil => exact h
  | cons x args ih => exact ih h.app

/-- A term without steps. -/
def Stuck (t : Term) : Prop := ∀ u, ¬HeadStep t u

theorem Stuck.app {f x : Term} (hf : Stuck f) (hlam : ∀ name id body, f ≠ .Lam name id body)
    (hmat : ∀ c arm fallback, f ≠ .Mat c arm fallback) : Stuck (.App f x) := by
  intro u hu
  cases hu with
  | beta => exact hlam _ _ _ rfl
  | hit => exact hmat _ _ _ rfl
  | miss => exact hmat _ _ _ rfl
  | fn h => exact hf _ h
  | scrutinee => exact hmat _ _ _ rfl

/-- `Efq` stays, whatever it is applied to. -/
theorem stuck_apps_efq (args : List Term) : Stuck (apps .Efq args) := by
  have happ : ∀ (args : List Term) (f : Term), Stuck f → (∀ name id body, f ≠ .Lam name id body) →
      (∀ c arm fallback, f ≠ .Mat c arm fallback) → Stuck (apps f args) := by
    intro args
    induction args with
    | nil => exact fun _ hf _ _ => hf
    | cons x args ih =>
      intro f hf hlam hmat
      exact ih (.App f x) (hf.app hlam hmat) (by simp) (by simp)
  exact happ args .Efq (fun _ hu => by cases hu) (by simp) (by simp)

/-- A stuck term that is reached is reached from everywhere on the way. -/
theorem Steps.through {t u s : Term} (hu : Steps t u) (hs : Steps t s) (hstuck : Stuck s) :
    Steps u s := by
  have hline : Relator.RightUnique HeadStep := fun _ _ _ h h' => h.unique h'
  rcases Relation.ReflTransGen.total_of_right_unique hline hu hs with h | h
  · exact h
  · rcases Relation.ReflTransGen.cases_head h with rfl | ⟨v, hstep, _⟩
    · exact .refl
    · exact absurd hstep (hstuck v)

/-- The term runs into `Efq`. -/
def ReachesEfq (t : Term) : Prop := ∃ args, Steps t (apps .Efq args)

theorem ReachesEfq.after {t u : Term} (h : ReachesEfq t) (hu : Steps t u) : ReachesEfq u := by
  obtain ⟨args, hargs⟩ := h
  exact ⟨args, hu.through hargs (stuck_apps_efq args)⟩

theorem ReachesEfq.before {t u : Term} (h : ReachesEfq u) (hu : Steps t u) : ReachesEfq t := by
  obtain ⟨args, hargs⟩ := h
  exact ⟨args, hu.trans hargs⟩

/-! ## 3. Entering lambdas -/

/-- Replace variables one after the other. -/
def Env.bindAll (ρ : Env) : List Nat → List Term → Env
  | x :: xs, v :: vs => bindAll (ρ.set x v) xs vs
  | _, _ => ρ

/-- Let the leading lambdas of a term take the arguments. -/
def entered : Term → Env → List Term → Term
  | .Lam _ y b, η, v :: vs => entered b (η.set y v) vs
  | t, η, vs => apps (subst η t) vs

@[simp] theorem entered_nil (t : Term) (η : Env) : entered t η [] = subst η t := by
  cases t <;> rfl

@[simp] theorem entered_lam (name : String) (y : Nat) (b : Term) (η : Env) (v : Term)
    (vs : List Term) : entered (.Lam name y b) η (v :: vs) = entered b (η.set y v) vs := rfl

/-- `id` occurs in what the environment puts. -/
def Env.Brings (ρ : Env) (id : Nat) : Prop := ∃ x u, ρ x = some u ∧ FreeIn id u

theorem Env.Brings.of_set {ρ : Env} {x : Nat} {v : Term} {id : Nat} (h : (ρ.set x v).Brings id) :
    ρ.Brings id ∨ FreeIn id v := by
  obtain ⟨y, u, hy, hu⟩ := h
  by_cases hyx : y = x
  · rw [hyx, Env.set_self] at hy
    cases hy
    exact .inr hu
  · exact .inl ⟨y, u, by rwa [Env.set_of_ne _ _ hyx] at hy, hu⟩

theorem Env.Brings.of_hide {ρ : Env} {p : Nat → Bool} {id : Nat} (h : (ρ.hide p).Brings id) :
    ρ.Brings id := by
  obtain ⟨x, u, hx, hu⟩ := h
  by_cases hp : p x
  · simp [Env.hide_of_pos _ hp] at hx
  · exact ⟨x, u, by rwa [Env.hide_of_neg _ hp] at hx, hu⟩

theorem Env.bindAll_agree {ρ σ : Env} {y : Nat} (h : ρ y = σ y) (xs : List Nat)
    (vs : List Term) : ρ.bindAll xs vs y = σ.bindAll xs vs y := by
  induction xs generalizing ρ σ vs with
  | nil => cases vs <;> exact h
  | cons x xs ih =>
    cases vs with
    | nil => exact h
    | cons v vs =>
      refine ih ?_ vs
      by_cases hy : y = x
      · rw [hy, Env.set_self, Env.set_self]
      · rw [Env.set_of_ne _ _ hy, Env.set_of_ne _ _ hy, h]

theorem Env.bindAll_of_not_mem {ρ : Env} {y : Nat} {xs : List Nat} (h : y ∉ xs)
    (vs : List Term) : ρ.bindAll xs vs y = ρ y := by
  induction xs generalizing ρ vs with
  | nil => cases vs <;> rfl
  | cons x xs ih =>
    cases vs with
    | nil => rfl
    | cons v vs =>
      simp only [List.mem_cons, not_or] at h
      exact (ih h.2 vs).trans (Env.set_of_ne _ _ h.1)

theorem Env.bindAll_append {ρ : Env} {xs : List Nat} {vs : List Term} (h : xs.length = vs.length)
    (ys : List Nat) (ws : List Term) :
    ρ.bindAll (xs ++ ys) (vs ++ ws) = (ρ.bindAll xs vs).bindAll ys ws := by
  induction xs generalizing ρ vs with
  | nil =>
    obtain rfl := List.length_eq_zero_iff.mp h.symm
    rfl
  | cons x xs ih =>
    cases vs with
    | nil => simp at h
    | cons v vs => exact ih (by simpa using h)

/-- Each variable gets its value. -/
theorem Env.map_bindAll {ρ : Env} {xs : List Nat} {vs : List Term} (h : xs.length = vs.length)
    (hnodup : xs.Nodup) : xs.map (ρ.bindAll xs vs) = vs.map some := by
  induction xs generalizing ρ vs with
  | nil =>
    obtain rfl := List.length_eq_zero_iff.mp h.symm
    rfl
  | cons x xs ih =>
    cases vs with
    | nil => simp at h
    | cons v vs =>
      obtain ⟨hx, hxs⟩ := List.nodup_cons.mp hnodup
      have hhead : (ρ.set x v).bindAll xs vs x = some v := by
        rw [Env.bindAll_of_not_mem hx, Env.set_self]
      simp only [List.map_cons, Env.bindAll, hhead, ih (by simpa using h) hxs]

/-- Without repetitions, the order of the replacements does not matter. -/
theorem Env.bindAll_eq_setAll {ρ : Env} {xs : List Nat} (hnodup : xs.Nodup) (vs : List Term) :
    ρ.bindAll xs vs = ρ.setAll (xs.zip vs) := by
  induction xs generalizing ρ vs with
  | nil => cases vs <;> rfl
  | cons x xs ih =>
    cases vs with
    | nil => rfl
    | cons v vs =>
      obtain ⟨hx, hxs⟩ := List.nodup_cons.mp hnodup
      rw [Env.bindAll, ih hxs, List.zip_cons_cons, Env.setAll]
      funext y
      by_cases hy : y = x
      · have hmem : x ∉ (xs.zip vs).map Prod.fst := fun hmem => by
          obtain ⟨p, hp, rfl⟩ := List.mem_map.mp hmem
          exact hx (List.of_mem_zip hp).1
        rw [hy, Env.set_self, Env.setAll_of_not_mem _ hmem, Env.set_self]
      · rw [Env.set_of_ne _ _ hy]
        exact Env.setAll_agree _ (Env.set_of_ne _ _ hy)

theorem Env.Brings.of_bindAll {ρ : Env} {xs : List Nat} {vs : List Term} {id : Nat}
    (h : (ρ.bindAll xs vs).Brings id) : ρ.Brings id ∨ ∃ v ∈ vs, FreeIn id v := by
  induction xs generalizing ρ vs with
  | nil => cases vs <;> exact .inl h
  | cons x xs ih =>
    cases vs with
    | nil => exact .inl h
    | cons v vs =>
      rcases ih h with h | ⟨w, hw, hfree⟩
      · exact h.of_set.imp_right fun h => ⟨v, by simp, h⟩
      · exact .inr ⟨w, List.mem_cons_of_mem _ hw, hfree⟩

/-- Substituting for a hidden variable after an environment that does not bring it in. -/
theorem substitute_subst {ρ : Env} {x : Nat} {v t : Term} {p : Nat → Bool} (hpx : p x)
    (hx : ¬ρ.Brings x) :
    substitute x v (subst (ρ.hide p) t) = subst ((ρ.set x v).hide fun y => p y && y ≠ x) t := by
  rw [substitute_eq, subst_subst]
  · refine subst_congr fun id _ => ?_
    simp only [Env.comp]
    by_cases hid : id = x
    · subst hid
      simp [Env.hide, hpx]
    · cases hρ : ρ.hide p id with
      | none => simpa [Env.hide, Env.set, hid, Env.empty] using hρ.symm
      | some u =>
        have hclosed : subst (Env.empty.set x v) u = u := by
          refine (subst_congr fun z hz => ?_).trans (subst_empty u)
          refine Env.set_of_ne _ _ fun hzx => hx ?_
          exact Env.Brings.of_hide ⟨id, u, hρ, hzx ▸ hz⟩
        simpa [Env.hide, Env.set, hid, hclosed] using hρ.symm
  · intro y u id hy hu _
    refine Env.set_of_ne _ _ fun hid => hx ?_
    exact Env.Brings.of_hide ⟨y, u, hy, hid ▸ hu⟩

/-- One variable: a contracted lambda. -/
theorem substitute_subst_drop {ρ : Env} {x : Nat} {v t : Term} (hx : ¬ρ.Brings x) :
    substitute x v (subst (ρ.drop x) t) = subst (ρ.set x v) t := by
  rw [Env.drop, substitute_subst (by simp) hx]
  refine subst_congr fun id _ => ?_
  simp [Env.hide]

/-- **An expanded `let`** binds all its names at once, when its values do not use them. -/
theorem expand_subst {ρ : Env} {bindings : List (LetBinding Term)} {t : Term}
    (hnodup : (bindings.map (·.id)).Nodup)
    (hbrings : ∀ b ∈ bindings, ¬ρ.Brings b.id)
    (hvalues : ∀ b ∈ bindings, ∀ c ∈ bindings, ¬FreeIn b.id c.value) :
    expand bindings (subst (ρ.dropAll bindings) t) =
      subst (ρ.bindAll (bindings.map (·.id)) (bindings.map (·.value))) t := by
  induction bindings generalizing ρ with
  | nil =>
    refine subst_congr fun id _ => ?_
    simp [Env.dropAll, Env.hide, Env.bindAll]
  | cons b bindings ih =>
    obtain ⟨hb, hnodup⟩ := List.nodup_cons.mp hnodup
    have hstep : substitute b.id b.value (subst (ρ.dropAll (b :: bindings)) t) =
        subst ((ρ.set b.id b.value).dropAll bindings) t := by
      rw [Env.dropAll, substitute_subst (by simp) (hbrings b (by simp))]
      refine subst_congr fun id _ => ?_
      by_cases hid : id = b.id
      · have hany : bindings.any (·.id = b.id) = false := by
          simpa [List.any_eq_false] using hb
        simp [Env.dropAll, Env.hide, hid, hany]
      · simp [Env.dropAll, Env.hide, hid, Ne.symm hid]
    have hset : ∀ c ∈ bindings, ¬(ρ.set b.id b.value).Brings c.id := by
      intro c hc hbring
      rcases hbring.of_set with h | h
      · exact hbrings c (List.mem_cons_of_mem _ hc) h
      · exact hvalues c (List.mem_cons_of_mem _ hc) b (by simp) h
    calc expand (b :: bindings) (subst (ρ.dropAll (b :: bindings)) t)
        = expand bindings (subst ((ρ.set b.id b.value).dropAll bindings) t) := by
          rw [← hstep]; rfl
      _ = _ := ih hnodup hset fun c hc d hd =>
          hvalues c (List.mem_cons_of_mem _ hc) d (List.mem_cons_of_mem _ hd)

end TeamyBend.Kernel
