/-
# The rules of reduction

What the kernel may do at the head of a term, as a relation on nameless terms: contract a lambda,
look up an alias, unfold a definition that has all its arguments, choose the arm or the fallback of
a match, expand a `let`, drop an annotation or a rewrite by reflexivity, and let two quantities
meet.  Nothing is captured here, since nothing has a name.

`Whnf` says when no rule is left at the head.  A rule that waits for a part of the term (the
argument of a match, the evidence of a rewrite) is ruled out by what that part evaluates to, and a
call is left alone while its body, given the arguments, waits in its own patterns (`Blocked`).
Where no name is both a definition and a datatype the rules are confluent, and then a normal term
stays what it is: it never becomes a constructor, a lambda or a reflexivity that it is not already
(`Whnf.eq_of_reaches`).
-/
import TeamyBend.Kernel.Nameless
import Mathlib.Logic.Relation

namespace TeamyBend.Kernel

open Relation

/-! ## 1. Spines -/

namespace Nameless

/-- An application to some arguments. -/
def apps (f : Nameless) (args : List Nameless) : Nameless := args.foldl .App f

@[simp] theorem apps_nil (f : Nameless) : apps f [] = f := rfl

@[simp] theorem apps_cons (f x : Nameless) (args : List Nameless) :
    apps f (x :: args) = apps (.App f x) args := rfl

theorem apps_append (f : Nameless) (args more : List Nameless) :
    apps f (args ++ more) = apps (apps f args) more := List.foldl_append

/-- The head of a spine. -/
def head : Nameless → Nameless
  | .App f _ => head f
  | t => t

/-- The arguments of a spine. -/
def arguments : Nameless → List Nameless
  | .App f x => arguments f ++ [x]
  | _ => []

/-- The name of a reference. -/
def referenceName : Nameless → Option String
  | .Ref name | .GpuRef name => some name
  | _ => none

theorem apps_head_arguments (t : Nameless) : apps t.head t.arguments = t := by
  fun_induction head t with
  | case1 f x ih => rw [arguments, apps_append, ih]; rfl
  | case2 t h => cases t <;> simp_all [arguments]

theorem head_apps (f : Nameless) (args : List Nameless) : (apps f args).head = f.head := by
  induction args generalizing f with
  | nil => rfl
  | cons x args ih => exact ih (.App f x)

theorem arguments_apps (f : Nameless) (args : List Nameless) :
    (apps f args).arguments = f.arguments ++ args := by
  induction args generalizing f with
  | nil => simp
  | cons x args ih => simpa [arguments] using ih (.App f x)

/-- A reference is its own head. -/
theorem head_of_reference {f : Nameless} {name : String} (h : f.referenceName = some name) :
    f.head = f ∧ f.arguments = [] := by
  cases f <;> simp_all [referenceName, head, arguments]

end Nameless

/-! ## 2. Steps -/

/-- What a reduction can look up. -/
structure Globals where
  defs : String → Option DefDecl
  adts : String → Option AdtDecl
  aliases : Nat → Option Term

/-- No name is a definition and a datatype. -/
def Globals.Disjoint (g : Globals) : Prop := ∀ name adt, g.adts name = some adt → g.defs name = none

/-- What two quantities meet in. -/
inductive Meet : Nameless → Nameless → Nameless → Prop where
  | leftNone {b : Nameless} : Meet (.Qua .None) b (.Qua .None)
  | leftMany {b : Nameless} : Meet (.Qua .Many) b b
  | rightNone {a : Nameless} : Meet a (.Qua .None) (.Qua .None)
  | rightMany {a : Nameless} : Meet a (.Qua .Many) a
  | lone : Meet (.Qua .Lone) (.Qua .Lone) (.Qua .Lone)

/-- **One step of weak head reduction.** -/
inductive Step (g : Globals) : Nameless → Nameless → Prop where
  | beta {body x : Nameless} : Step g (.App (.Lam body) x) (body.instantiate 0 [x])
  | aliased {id : Nat} {t : Term} (h : g.aliases id = some t) : Step g (.free id) (nameless t)
  | unfold {t : Nameless} {name : String} {definition : DefDecl} {body : Term}
      (hname : t.head.referenceName = some name) (hdef : g.defs name = some definition)
      (hbody : definition.body = some body)
      (harity : t.arguments.length = definition.parameters.length) :
      Step g t ((nameless body).apps t.arguments)
  | datatype {t : Nameless} {name : String} {adt : AdtDecl} (hname : t.referenceName = some name)
      (hadt : g.adts name = some adt) (hnullary : adt.parameters = []) :
      Step g t (.Adt name [] [])
  | hit {c : String} {arm fallback : Nameless} {args : List Nameless} :
      Step g (.App (.Mat c arm fallback) (.Ctr c args)) (arm.apps args)
  | miss {c d : String} {arm fallback : Nameless} {args : List Nameless} (h : d ≠ c) :
      Step g (.App (.Mat c arm fallback) (.Ctr d args)) (.App fallback (.Ctr d args))
  | bind {quants : List Quant} {values : List Nameless} {body : Nameless} :
      Step g (.Let quants values body) (body.instantiate 0 values)
  | ann {value ty : Nameless} : Step g (.Ann value ty) value
  | rewrite {motive body : Nameless} : Step g (.Rwt .Rfl motive body) body
  | meet {a b c : Nameless} (h : Meet a b c) : Step g (.Min a b) c
  | fn {f f' x : Nameless} (h : Step g f f') : Step g (.App f x) (.App f' x)
  | scrutinee {c : String} {arm fallback x x' : Nameless} (h : Step g x x') :
      Step g (.App (.Mat c arm fallback) x) (.App (.Mat c arm fallback) x')
  | evidence {e e' motive body : Nameless} (h : Step g e e') :
      Step g (.Rwt e motive body) (.Rwt e' motive body)
  | minLeft {a a' b : Nameless} (h : Step g a a') : Step g (.Min a b) (.Min a' b)
  | minRight {a b b' : Nameless} (h : Step g b b') : Step g (.Min a b) (.Min a b')

/-- Any number of steps. -/
abbrev Reaches (g : Globals) : Nameless → Nameless → Prop := ReflTransGen (Step g)

section Reaches

variable {g : Globals}

theorem Reaches.trans {t u v : Nameless} (h : Reaches g t u) (h' : Reaches g u v) :
    Reaches g t v := ReflTransGen.trans h h'

theorem Step.reaches {t u : Nameless} (h : Step g t u) : Reaches g t u := .single h

theorem Reaches.fn {f f' : Nameless} (h : Reaches g f f') (x : Nameless) :
    Reaches g (.App f x) (.App f' x) := by
  induction h with
  | refl => exact .refl
  | tail _ hstep ih => exact ih.tail (.fn hstep)

theorem Reaches.apps {f f' : Nameless} (h : Reaches g f f') (args : List Nameless) :
    Reaches g (f.apps args) (f'.apps args) := by
  induction args generalizing f f' with
  | nil => exact h
  | cons x args ih => exact ih (h.fn x)

/-- The scrutinee of a match may be reduced. -/
theorem Reaches.scrutinee {x x' : Nameless} (h : Reaches g x x') (c : String)
    (arm fallback : Nameless) :
    Reaches g (.App (.Mat c arm fallback) x) (.App (.Mat c arm fallback) x') := by
  induction h with
  | refl => exact .refl
  | tail _ hstep ih => exact ih.tail (.scrutinee hstep)

theorem Reaches.evidence {e e' : Nameless} (h : Reaches g e e') (motive body : Nameless) :
    Reaches g (.Rwt e motive body) (.Rwt e' motive body) := by
  induction h with
  | refl => exact .refl
  | tail _ hstep ih => exact ih.tail (.evidence hstep)

/-- Both sides of a minimum may be reduced. -/
theorem Reaches.min {a a' b b' : Nameless} (ha : Reaches g a a') (hb : Reaches g b b') :
    Reaches g (.Min a b) (.Min a' b') := by
  have hleft : Reaches g (.Min a b) (.Min a' b) := by
    induction ha with
    | refl => exact .refl
    | tail _ hstep ih => exact ih.tail (.minLeft hstep)
  refine hleft.trans ?_
  induction hb with
  | refl => exact .refl
  | tail _ hstep ih => exact ih.tail (.minRight hstep)

/-- A reference with all its arguments steps to the body. -/
theorem Step.call {f : Nameless} {name : String} {definition : DefDecl} {body : Term}
    {args : List Nameless} (hname : f.referenceName = some name)
    (hdef : g.defs name = some definition) (hbody : definition.body = some body)
    (harity : args.length = definition.parameters.length) :
    Step g (f.apps args) ((nameless body).apps args) := by
  obtain ⟨hhead, hargs⟩ := Nameless.head_of_reference hname
  have hall : (f.apps args).arguments = args := by
    rw [Nameless.arguments_apps, hargs, List.nil_append]
  have hstep := Step.unfold (g := g) (t := f.apps args)
    (by rw [Nameless.head_apps, hhead, hname]) hdef hbody (by rw [hall, harity])
  rwa [hall] at hstep

/-- A definition takes the arguments it asks for, and the others stay. -/
theorem Reaches.unfold {t : Nameless} {name : String} {definition : DefDecl} {body : Term}
    (hname : t.head.referenceName = some name) (hdef : g.defs name = some definition)
    (hbody : definition.body = some body)
    (harity : definition.parameters.length ≤ t.arguments.length) :
    Reaches g t ((nameless body).apps t.arguments) := by
  have hstep : Step g (t.head.apps (t.arguments.take definition.parameters.length)) _ :=
    Step.call hname hdef hbody (by rw [List.length_take]; omega)
  have hrun := hstep.reaches.apps (t.arguments.drop definition.parameters.length)
  simpa only [← Nameless.apps_append, List.take_append_drop, Nameless.apps_head_arguments]
    using hrun

/-- A match on a constructor of its name takes the fields. -/
theorem Reaches.hit {c : String} {arm fallback x : Nameless} {args : List Nameless}
    (h : Reaches g x (.Ctr c args)) :
    Reaches g (.App (.Mat c arm fallback) x) (arm.apps args) :=
  (h.scrutinee c arm fallback).tail .hit

theorem Reaches.miss {c d : String} {arm fallback x : Nameless} {args : List Nameless}
    (h : Reaches g x (.Ctr d args)) (hne : d ≠ c) :
    Reaches g (.App (.Mat c arm fallback) x) (.App fallback (.Ctr d args)) :=
  (h.scrutinee c arm fallback).tail (.miss hne)

theorem Reaches.rewrite {e motive body : Nameless} (h : Reaches g e .Rfl) :
    Reaches g (.Rwt e motive body) body :=
  (h.evidence motive body).tail .rewrite

end Reaches

/-! ## 3. Canonical terms -/

namespace Nameless

/-- The heads without a rule. -/
def Canonical : Nameless → Prop
  | .free _ | .Ref _ | .GpuRef _ | .Min _ _ | .App _ _ | .Rwt _ _ _ | .Ann _ _ | .Let _ _ _ => False
  | _ => True

end Nameless

section Canonical

variable {g : Globals}

/-- A canonical term does not step. -/
theorem Canonical.stuck {t u : Nameless} (h : t.Canonical) : ¬Step g t u := by
  intro hstep
  cases hstep with
  | unfold hname => cases t <;> simp_all [Nameless.Canonical, Nameless.head, Nameless.referenceName]
  | datatype hname => cases t <;> simp_all [Nameless.Canonical, Nameless.referenceName]
  | _ => exact h

theorem Canonical.eq_of_reaches {t u : Nameless} (h : t.Canonical) (hu : Reaches g t u) :
    u = t := by
  rcases ReflTransGen.cases_head hu with rfl | ⟨v, hstep, _⟩
  · rfl
  · exact absurd hstep (Canonical.stuck h)

theorem Canonical.referenceName_head {t : Nameless} (h : t.Canonical) :
    t.head.referenceName = none := by
  cases t <;> simp_all [Nameless.Canonical, Nameless.head, Nameless.referenceName]

end Canonical

/-! ## 4. Confluence -/

section Confluence

variable {g : Globals}

theorem Meet.unique {a b c d : Nameless} (h : Meet a b c) (h' : Meet a b d) : c = d := by
  cases h <;> cases h' <;> rfl

/-- A meet survives a step of one side. -/
theorem Meet.left {a a' b c : Nameless} (h : Meet a b c) (hstep : Step g a a') :
    ∃ d, ReflGen (Step g) c d ∧ Meet a' b d := by
  cases h with
  | leftNone => exact absurd hstep (Canonical.stuck trivial)
  | leftMany => exact absurd hstep (Canonical.stuck trivial)
  | rightNone => exact ⟨_, .refl, .rightNone⟩
  | rightMany => exact ⟨a', .single hstep, .rightMany⟩
  | lone => exact absurd hstep (Canonical.stuck trivial)

/-- A meeting survives a step of its right side. -/
theorem Meet.right {a b b' c : Nameless} (h : Meet a b c) (hstep : Step g b b') :
    ∃ d, ReflGen (Step g) c d ∧ Meet a b' d := by
  cases h with
  | leftNone => exact ⟨_, .refl, .leftNone⟩
  | leftMany => exact ⟨b', .single hstep, .leftMany⟩
  | rightNone => exact absurd hstep (Canonical.stuck trivial)
  | rightMany => exact absurd hstep (Canonical.stuck trivial)
  | lone => exact absurd hstep (Canonical.stuck trivial)

/-- A call that steps inside is no call with all its arguments. -/
theorem Step.call_length {f f' x : Nameless} {name : String} {definition : DefDecl}
    (hg : g.Disjoint) (h : Step g f f') (hname : f.head.referenceName = some name)
    (hdef : g.defs name = some definition) :
    (Nameless.App f x).arguments.length ≠ definition.parameters.length := by
  suffices hle : definition.parameters.length ≤ f.arguments.length by
    simp only [Nameless.arguments, List.length_append, List.length_singleton]
    omega
  induction h with
  | unfold hname' hdef' _ harity =>
    rw [hname] at hname'
    cases hname'
    rw [hdef] at hdef'
    cases hdef'
    exact Nat.le_of_eq harity.symm
  | datatype hname' hadt =>
    rw [(Nameless.head_of_reference hname').1, hname'] at hname
    cases hname
    rw [hg _ _ hadt] at hdef
    cases hdef
  | fn _ ih =>
    have hle := ih hname
    simp only [Nameless.arguments, List.length_append, List.length_singleton]
    omega
  | _ => simp [Nameless.head, Nameless.referenceName] at hname

theorem ReflGen.under {r : Nameless → Nameless → Prop} {t u : Nameless} (h : ReflGen r t u)
    (f : Nameless → Nameless) (hf : ∀ {t u}, r t u → r (f t) (f u)) : ReflGen r (f t) (f u) := by
  cases h with
  | refl => exact .refl
  | single h => exact .single (hf h)

/-! A redex with no part that steps has one step. -/

theorem step_beta {body x v : Nameless} (h : Step g (.App (.Lam body) x) v) :
    v = body.instantiate 0 [x] := by
  cases h with
  | beta => rfl
  | unfold hname => simp [Nameless.head, Nameless.referenceName] at hname
  | datatype hname => simp [Nameless.referenceName] at hname
  | fn h => exact absurd h (Canonical.stuck trivial)

theorem step_aliased {id : Nat} {t : Term} {v : Nameless} (hid : g.aliases id = some t)
    (h : Step g (.free id) v) : v = nameless t := by
  cases h with
  | aliased h' =>
    rw [hid] at h'
    cases h'
    rfl
  | unfold hname => simp [Nameless.head, Nameless.referenceName] at hname
  | datatype hname => simp [Nameless.referenceName] at hname

/-- A call with all its arguments is unfolded. -/
theorem step_unfold (hg : g.Disjoint) {t v : Nameless} {name : String} {definition : DefDecl}
    {body : Term} (hname : t.head.referenceName = some name)
    (hdef : g.defs name = some definition) (hbody : definition.body = some body)
    (harity : t.arguments.length = definition.parameters.length) (h : Step g t v) :
    v = (nameless body).apps t.arguments := by
  cases h with
  | unfold hname' hdef' hbody' harity' =>
    rw [hname] at hname'
    cases hname'
    rw [hdef] at hdef'
    cases hdef'
    rw [hbody] at hbody'
    cases hbody'
    rfl
  | datatype hname' hadt =>
    rw [(Nameless.head_of_reference hname').1, hname'] at hname
    cases hname
    rw [hg _ _ hadt] at hdef
    cases hdef
  | fn h => exact absurd harity (h.call_length hg hname hdef)
  | _ => simp [Nameless.head, Nameless.referenceName] at hname

theorem step_datatype (hg : g.Disjoint) {t v : Nameless} {name : String} {adt : AdtDecl}
    (hname : t.referenceName = some name) (hadt : g.adts name = some adt) (h : Step g t v) :
    v = .Adt name [] [] := by
  cases h with
  | unfold hname' hdef' hbody' harity' =>
    rw [(Nameless.head_of_reference hname).1, hname] at hname'
    cases hname'
    rw [hg _ _ hadt] at hdef'
    cases hdef'
  | datatype hname' hadt' =>
    rw [hname] at hname'
    cases hname'
    rfl
  | _ => simp [Nameless.referenceName] at hname

/-- A match on a constructor chooses by its name. -/
theorem step_match {c d : String} {arm fallback v : Nameless} {args : List Nameless}
    (h : Step g (.App (.Mat c arm fallback) (.Ctr d args)) v) :
    v = if d = c then arm.apps args else .App fallback (.Ctr d args) := by
  cases h with
  | hit => rw [if_pos rfl]
  | miss h => rw [if_neg h]
  | unfold hname => simp [Nameless.head, Nameless.referenceName] at hname
  | datatype hname => simp [Nameless.referenceName] at hname
  | fn h => exact absurd h (Canonical.stuck trivial)
  | scrutinee h => exact absurd h (Canonical.stuck trivial)

theorem step_bind {quants : List Quant} {values : List Nameless} {body v : Nameless}
    (h : Step g (.Let quants values body) v) : v = body.instantiate 0 values := by
  cases h with
  | bind => rfl
  | unfold hname => simp [Nameless.head, Nameless.referenceName] at hname
  | datatype hname => simp [Nameless.referenceName] at hname

theorem step_ann {value ty v : Nameless} (h : Step g (.Ann value ty) v) : v = value := by
  cases h with
  | ann => rfl
  | unfold hname => simp [Nameless.head, Nameless.referenceName] at hname
  | datatype hname => simp [Nameless.referenceName] at hname

theorem step_rewrite {motive body v : Nameless} (h : Step g (.Rwt .Rfl motive body) v) :
    v = body := by
  cases h with
  | rewrite => rfl
  | unfold hname => simp [Nameless.head, Nameless.referenceName] at hname
  | datatype hname => simp [Nameless.referenceName] at hname
  | evidence h => exact absurd h (Canonical.stuck trivial)

theorem joins_of_eq {u v : Nameless} (h : v = u) :
    ∃ w, ReflGen (Step g) u w ∧ ReflGen (Step g) v w := ⟨u, .refl, h ▸ .refl⟩

/-- **Two steps from one term meet again.** -/
theorem Step.diamond (hg : g.Disjoint) {t u v : Nameless} (hu : Step g t u) (hv : Step g t v) :
    ∃ w, ReflGen (Step g) u w ∧ ReflGen (Step g) v w := by
  induction hu generalizing v with
  | beta => exact joins_of_eq (step_beta hv)
  | aliased h => exact joins_of_eq (step_aliased h hv)
  | unfold hname hdef hbody harity => exact joins_of_eq (step_unfold hg hname hdef hbody harity hv)
  | datatype hname hadt hnullary => exact joins_of_eq (step_datatype hg hname hadt hv)
  | hit => exact joins_of_eq ((step_match hv).trans (if_pos rfl))
  | miss hne => exact joins_of_eq ((step_match hv).trans (if_neg hne))
  | bind => exact joins_of_eq (step_bind hv)
  | ann => exact joins_of_eq (step_ann hv)
  | rewrite => exact joins_of_eq (step_rewrite hv)
  | meet h =>
    cases hv with
    | meet h' => exact ⟨_, .refl, h.unique h' ▸ .refl⟩
    | unfold hname => simp [Nameless.head, Nameless.referenceName] at hname
    | datatype hname => simp [Nameless.referenceName] at hname
    | minLeft hstep =>
      obtain ⟨d, hd, hmeet⟩ := h.left hstep
      exact ⟨d, hd, .single (.meet hmeet)⟩
    | minRight hstep =>
      obtain ⟨d, hd, hmeet⟩ := h.right hstep
      exact ⟨d, hd, .single (.meet hmeet)⟩
  | fn h ih =>
    cases hv with
    | beta | hit | miss | scrutinee => exact absurd h (Canonical.stuck trivial)
    | unfold hname hdef hbody harity => exact absurd harity (h.call_length hg hname hdef)
    | datatype hname => simp [Nameless.referenceName] at hname
    | fn h' =>
      obtain ⟨w, hw, hw'⟩ := ih h'
      exact ⟨.App w _, ReflGen.under hw (.App · _) fun h => .fn h,
        ReflGen.under hw' (.App · _) fun h => .fn h⟩
  | scrutinee h ih =>
    cases hv with
    | hit | miss => exact absurd h (Canonical.stuck trivial)
    | fn h' => exact absurd h' (Canonical.stuck trivial)
    | unfold hname => simp [Nameless.head, Nameless.referenceName] at hname
    | datatype hname => simp [Nameless.referenceName] at hname
    | scrutinee h' =>
      obtain ⟨w, hw, hw'⟩ := ih h'
      exact ⟨_, ReflGen.under hw (.App (.Mat ..) ·) fun h => .scrutinee h,
        ReflGen.under hw' (.App (.Mat ..) ·) fun h => .scrutinee h⟩
  | evidence h ih =>
    cases hv with
    | rewrite => exact absurd h (Canonical.stuck trivial)
    | unfold hname => simp [Nameless.head, Nameless.referenceName] at hname
    | datatype hname => simp [Nameless.referenceName] at hname
    | evidence h' =>
      obtain ⟨w, hw, hw'⟩ := ih h'
      exact ⟨_, ReflGen.under hw (.Rwt · _ _) fun h => .evidence h,
        ReflGen.under hw' (.Rwt · _ _) fun h => .evidence h⟩
  | minLeft h ih =>
    cases hv with
    | meet h' =>
      obtain ⟨d, hd, hmeet⟩ := h'.left h
      exact ⟨d, .single (.meet hmeet), hd⟩
    | unfold hname => simp [Nameless.head, Nameless.referenceName] at hname
    | datatype hname => simp [Nameless.referenceName] at hname
    | minLeft h' =>
      obtain ⟨w, hw, hw'⟩ := ih h'
      exact ⟨_, ReflGen.under hw (.Min · _) fun h => .minLeft h,
        ReflGen.under hw' (.Min · _) fun h => .minLeft h⟩
    | minRight h' => exact ⟨_, .single (.minRight h'), .single (.minLeft h)⟩
  | minRight h ih =>
    cases hv with
    | meet h' =>
      obtain ⟨d, hd, hmeet⟩ := h'.right h
      exact ⟨d, .single (.meet hmeet), hd⟩
    | unfold hname => simp [Nameless.head, Nameless.referenceName] at hname
    | datatype hname => simp [Nameless.referenceName] at hname
    | minLeft h' => exact ⟨_, .single (.minLeft h'), .single (.minRight h)⟩
    | minRight h' =>
      obtain ⟨w, hw, hw'⟩ := ih h'
      exact ⟨_, ReflGen.under hw (.Min _ ·) fun h => .minRight h,
        ReflGen.under hw' (.Min _ ·) fun h => .minRight h⟩

/-- **A canonical term that is reached is reached from everywhere on the way.** -/
theorem Reaches.through (hg : g.Disjoint) {t u v : Nameless} (hu : Reaches g t u)
    (hv : Reaches g t v) (hcanonical : v.Canonical) : Reaches g u v := by
  have hjoin : Join (Reaches g) u v := by
    refine church_rosser (fun _ _ _ h h' => ?_) hu hv
    obtain ⟨w, hw, hw'⟩ := h.diamond hg h'
    exact ⟨w, hw, hw'.to_reflTransGen⟩
  obtain ⟨w, huw, hvw⟩ := hjoin
  obtain rfl := Canonical.eq_of_reaches hcanonical hvw
  exact huw

end Confluence

/-! ## 5. Whnf terms -/

/-- The fallback ends in `Efq` for a constructor `d`. -/
inductive Residual (g : Globals) (d : String) : Nameless → Prop where
  | efq {fallback : Nameless} (h : Reaches g fallback .Efq) : Residual g d fallback
  | mat {c : String} {fallback arm rest : Nameless} (h : Reaches g fallback (.Mat c arm rest))
      (hne : d ≠ c) (hrest : Residual g d rest) : Residual g d fallback

mutual

/-- **No rule is left at the head.** -/
inductive Whnf (g : Globals) : Nameless → Prop where
  | canonical {v : Nameless} (h : v.Canonical) : Whnf g v
  | free {id : Nat} (h : g.aliases id = none) : Whnf g (.free id)
  | datatype {f : Nameless} {name : String} {adt : AdtDecl} (hname : f.referenceName = some name)
      (hadt : g.adts name = some adt) (hparameters : adt.parameters ≠ []) : Whnf g f
  | call {t : Nameless} {name : String} (hname : t.head.referenceName = some name)
      (hadt : t.arguments = [] → g.adts name = none)
      (hdef : ∀ definition body, g.defs name = some definition → definition.body = some body →
        t.arguments.length < definition.parameters.length) : Whnf g t
  | blocked {t : Nameless} {name : String} {definition : DefDecl} {body : Term}
      (hname : t.head.referenceName = some name) (hdef : g.defs name = some definition)
      (hbody : definition.body = some body)
      (harity : definition.parameters.length ≤ t.arguments.length)
      (h : Blocked g (nameless body) (t.arguments.take definition.parameters.length)) : Whnf g t
  | app {f x : Nameless} (hf : Whnf g f) (hlam : ∀ b, f ≠ .Lam b)
      (hmat : ∀ c arm fallback, f ≠ .Mat c arm fallback) (hcall : f.head.referenceName = none) :
      Whnf g (.App f x)
  | mat {c : String} {arm fallback x x' : Nameless} (hx : Reaches g x x') (hnormal : Whnf g x')
      (hctr : ∀ d args, x' ≠ .Ctr d args) : Whnf g (.App (.Mat c arm fallback) x)
  | residual {c d : String} {arm fallback x : Nameless} {args : List Nameless}
      (hx : Reaches g x (.Ctr d args)) (hne : d ≠ c) (h : Residual g d fallback) :
      Whnf g (.App (.Mat c arm fallback) x)
  | rewrite {e e' motive body : Nameless} (he : Reaches g e e') (hnormal : Whnf g e')
      (hne : e' ≠ .Rfl) : Whnf g (.Rwt e motive body)
  | min {a b : Nameless} (ha : Whnf g a) (hb : Whnf g b) (h : ∀ c, ¬Meet a b c) :
      Whnf g (.Min a b)

/-- **A body that, given the arguments, waits in its own patterns.** -/
inductive Blocked (g : Globals) : Nameless → List Nameless → Prop where
  | efq {x : Nameless} {xs : List Nameless} : Blocked g .Efq (x :: xs)
  | stuck {c : String} {arm fallback x x' : Nameless} {xs : List Nameless} (hx : Reaches g x x')
      (hnormal : Whnf g x') (hctr : ∀ d args, x' ≠ .Ctr d args) :
      Blocked g (.Mat c arm fallback) (x :: xs)
  | hit {c : String} {arm fallback x : Nameless} {xs args : List Nameless}
      (hx : Reaches g x (.Ctr c args)) (h : Blocked g arm (args ++ xs)) :
      Blocked g (.Mat c arm fallback) (x :: xs)
  | miss {c d : String} {arm fallback x : Nameless} {xs args : List Nameless}
      (hx : Reaches g x (.Ctr d args)) (hne : d ≠ c)
      (h : Blocked g fallback (.Ctr d args :: xs)) : Blocked g (.Mat c arm fallback) (x :: xs)
  | lam {body x : Nameless} {xs : List Nameless} (h : Blocked g (body.instantiate 0 [x]) xs) :
      Blocked g (.Lam body) (x :: xs)
  | ann {value ty x : Nameless} {xs : List Nameless} (h : Blocked g value (x :: xs)) :
      Blocked g (.Ann value ty) (x :: xs)
  | bind {quants : List Quant} {values : List Nameless} {body x : Nameless} {xs : List Nameless}
      (h : Blocked g (body.instantiate 0 values) (x :: xs)) :
      Blocked g (.Let quants values body) (x :: xs)
  | rewrite {e motive body x : Nameless} {xs : List Nameless} (he : Reaches g e .Rfl)
      (h : Blocked g body (x :: xs)) : Blocked g (.Rwt e motive body) (x :: xs)

end

/-! ## 6. What normal terms become -/

/-- Nothing that is reached has a rule of its own for its head. -/
def Inert (g : Globals) (w : Nameless) : Prop :=
  ∀ u, Reaches g w u → ¬u.Canonical ∧ u.head.referenceName = none

section Inert

variable {g : Globals}

/-- A stuck term that is neither canonical nor headed by a reference stays inert. -/
theorem inert_of_stuck {t : Nameless} (hstuck : ∀ u, ¬Step g t u) (hcanonical : ¬t.Canonical)
    (hname : t.head.referenceName = none) : Inert g t := by
  intro u hu
  rcases ReflTransGen.cases_head hu with rfl | ⟨v, hstep, _⟩
  · exact ⟨hcanonical, hname⟩
  · exact absurd hstep (hstuck v)

/-- An application of an inert term keeps its argument. -/
theorem Inert.app {f x : Nameless} (hf : Inert g f) : Inert g (.App f x) := by
  have hshape : ∀ u, Reaches g (.App f x) u → ∃ f', Reaches g f f' ∧ u = .App f' x := by
    intro u hu
    induction hu with
    | refl => exact ⟨f, .refl, rfl⟩
    | tail _ hstep ih =>
      obtain ⟨f', hf', rfl⟩ := ih
      obtain ⟨hcanonical, hname⟩ := hf f' hf'
      cases hstep with
      | beta => exact absurd trivial hcanonical
      | hit => exact absurd trivial hcanonical
      | miss => exact absurd trivial hcanonical
      | scrutinee => exact absurd trivial hcanonical
      | unfold hname' =>
        rw [Nameless.head, hname] at hname'
        cases hname'
      | datatype hname' => simp [Nameless.referenceName] at hname'
      | fn h => exact ⟨_, hf'.tail h, rfl⟩
  intro u hu
  obtain ⟨f', hf', rfl⟩ := hshape u hu
  exact ⟨id, (hf f' hf').2⟩

theorem Inert.apps {f : Nameless} (hf : Inert g f) (args : List Nameless) :
    Inert g (f.apps args) := by
  induction args generalizing f with
  | nil => exact hf
  | cons x args ih => exact ih hf.app

/-- An application of a canonical term that takes no argument. -/
theorem inert_app_canonical {f x : Nameless} (hf : f.Canonical) (hlam : ∀ b, f ≠ .Lam b)
    (hmat : ∀ c arm fallback, f ≠ .Mat c arm fallback) : Inert g (.App f x) := by
  have hname : (Nameless.App f x).head.referenceName = none := by
    rw [Nameless.head, Canonical.referenceName_head hf]
  refine inert_of_stuck (fun u hu => ?_) id hname
  cases hu with
  | beta => exact hlam _ rfl
  | hit => exact hmat _ _ _ rfl
  | miss => exact hmat _ _ _ rfl
  | scrutinee => exact hmat _ _ _ rfl
  | unfold hname' =>
    rw [hname] at hname'
    cases hname'
  | datatype hname' => simp [Nameless.referenceName] at hname'
  | fn h => exact Canonical.stuck hf h

theorem inert_efq (x : Nameless) (xs : List Nameless) : Inert g (Nameless.Efq.apps (x :: xs)) :=
  (inert_app_canonical (f := .Efq) trivial (by simp) (by simp)).apps xs

/-- A variable without an alias is inert. -/
theorem inert_free {id : Nat} (h : g.aliases id = none) : Inert g (.free id) := by
  refine inert_of_stuck (fun u hu => ?_) (fun h => h) rfl
  cases hu with
  | aliased h' =>
    rw [h] at h'
    cases h'
  | unfold hname => simp [Nameless.head, Nameless.referenceName] at hname
  | datatype hname => simp [Nameless.referenceName] at hname

/-- A match whose argument never becomes a constructor. -/
theorem inert_mat {c : String} {arm fallback x : Nameless}
    (hx : ∀ d args, ¬Reaches g x (.Ctr d args)) : Inert g (.App (.Mat c arm fallback) x) := by
  have hshape : ∀ u, Reaches g (.App (.Mat c arm fallback) x) u →
      ∃ x', Reaches g x x' ∧ u = .App (.Mat c arm fallback) x' := by
    intro u hu
    induction hu with
    | refl => exact ⟨x, .refl, rfl⟩
    | tail _ hstep ih =>
      obtain ⟨x', hx', rfl⟩ := ih
      cases hstep with
      | hit => exact absurd hx' (hx _ _)
      | miss => exact absurd hx' (hx _ _)
      | scrutinee h => exact ⟨_, hx'.tail h, rfl⟩
      | unfold hname => simp [Nameless.head, Nameless.referenceName] at hname
      | datatype hname => simp [Nameless.referenceName] at hname
      | fn h => exact absurd h (Canonical.stuck trivial)
  intro u hu
  obtain ⟨x', -, rfl⟩ := hshape u hu
  exact ⟨id, rfl⟩

/-- A rewrite whose evidence never becomes a reflexivity. -/
theorem inert_rewrite {e motive body : Nameless} (he : ¬Reaches g e .Rfl) :
    Inert g (.Rwt e motive body) := by
  have hshape : ∀ u, Reaches g (.Rwt e motive body) u →
      ∃ e', Reaches g e e' ∧ u = .Rwt e' motive body := by
    intro u hu
    induction hu with
    | refl => exact ⟨e, .refl, rfl⟩
    | tail _ hstep ih =>
      obtain ⟨e', he', rfl⟩ := ih
      cases hstep with
      | rewrite => exact absurd he' he
      | evidence h => exact ⟨_, he'.tail h, rfl⟩
      | unfold hname => simp [Nameless.head, Nameless.referenceName] at hname
      | datatype hname => simp [Nameless.referenceName] at hname
  intro u hu
  obtain ⟨e', -, rfl⟩ := hshape u hu
  exact ⟨id, rfl⟩

/-- Two quantities that never meet. -/
theorem inert_min {a b : Nameless}
    (h : ∀ a' b' c, Reaches g a a' → Reaches g b b' → ¬Meet a' b' c) : Inert g (.Min a b) := by
  have hshape : ∀ u, Reaches g (.Min a b) u →
      ∃ a' b', Reaches g a a' ∧ Reaches g b b' ∧ u = .Min a' b' := by
    intro u hu
    induction hu with
    | refl => exact ⟨a, b, .refl, .refl, rfl⟩
    | tail _ hstep ih =>
      obtain ⟨a', b', ha, hb, rfl⟩ := ih
      cases hstep with
      | meet hmeet => exact absurd hmeet (h _ _ _ ha hb)
      | minLeft hstep => exact ⟨_, _, ha.tail hstep, hb, rfl⟩
      | minRight hstep => exact ⟨_, _, ha, hb.tail hstep, rfl⟩
      | unfold hname => simp [Nameless.head, Nameless.referenceName] at hname
      | datatype hname => simp [Nameless.referenceName] at hname
  intro u hu
  obtain ⟨a', b', -, -, rfl⟩ := hshape u hu
  exact ⟨id, rfl⟩

/-- A constructor for which the match has no arm. -/
theorem Residual.inert {d : String} {fallback : Nameless} (h : Residual g d fallback)
    (args : List Nameless) : ∃ w, Reaches g (.App fallback (.Ctr d args)) w ∧ Inert g w := by
  induction h with
  | efq h => exact ⟨_, h.fn _, inert_efq _ []⟩
  | mat h hne _ ih =>
    obtain ⟨w, hw, hinert⟩ := ih
    exact ⟨w, (h.fn _).trans (hw.head (.miss hne)), hinert⟩

end Inert

/-- What becomes of a normal term. -/
inductive Outcome (g : Globals) (v : Nameless) : Prop where
  | canonical (h : v.Canonical)
  | inert {w : Nameless} (hw : Reaches g v w) (h : Inert g w)
  | call {name : String} (hname : v.head.referenceName = some name)
      (h : ∀ u, Reaches g v u → ¬u.Canonical)

section Outcome

variable {g : Globals}

/-- The only canonical term to be reached is the term itself. -/
theorem Outcome.eq_of_reaches (hg : g.Disjoint) {v u : Nameless} (h : Outcome g v)
    (hu : Reaches g v u) (hcanonical : u.Canonical) : u = v := by
  cases h with
  | canonical h => exact Canonical.eq_of_reaches h hu
  | inert hw h => exact absurd hcanonical (h u (hw.through hg hu hcanonical)).1
  | call _ h => exact absurd hcanonical (h u hu)

/-- The argument of a match that waits never becomes a constructor. -/
theorem Outcome.never (hg : g.Disjoint) {x x' : Nameless} (h : Outcome g x') (hx : Reaches g x x')
    (hctr : ∀ d args, x' ≠ .Ctr d args) (d : String) (args : List Nameless) :
    ¬Reaches g x (.Ctr d args) :=
  fun hreach => hctr d args (h.eq_of_reaches hg (hx.through hg hreach trivial) trivial).symm

/-- What a call can do. -/
theorem Step.of_call {t u : Nameless} {name : String} (h : Step g t u)
    (hname : t.head.referenceName = some name) :
    (∃ definition body, g.defs name = some definition ∧ definition.body = some body ∧
      definition.parameters.length ≤ t.arguments.length) ∨
    ∃ adt, g.adts name = some adt ∧ adt.parameters = [] ∧
      u = (Nameless.Adt name [] []).apps t.arguments := by
  induction h with
  | unfold hname' hdef hbody harity =>
    rw [hname] at hname'
    cases hname'
    exact .inl ⟨_, _, hdef, hbody, Nat.le_of_eq harity.symm⟩
  | datatype hname' hadt hnullary =>
    obtain ⟨hhead, hargs⟩ := Nameless.head_of_reference hname'
    rw [hhead, hname'] at hname
    cases hname
    exact .inr ⟨_, hadt, hnullary, by rw [hargs]; rfl⟩
  | fn _ ih =>
    rcases ih hname with ⟨definition, body, hdef, hbody, harity⟩ | ⟨adt, hadt, hnullary, rfl⟩
    · refine .inl ⟨definition, body, hdef, hbody, ?_⟩
      simp only [Nameless.arguments, List.length_append]
      omega
    · exact .inr ⟨adt, hadt, hnullary, by rw [Nameless.arguments, Nameless.apps_append]; rfl⟩
  | _ => simp [Nameless.head, Nameless.referenceName] at hname

/-- A call of nothing that could be unfolded. -/
theorem outcome_call {t : Nameless} {name : String} (hname : t.head.referenceName = some name)
    (hadt : t.arguments = [] → ∀ adt, g.adts name = some adt → adt.parameters ≠ [])
    (hdef : ∀ definition body, g.defs name = some definition → definition.body = some body →
      t.arguments.length < definition.parameters.length) : Outcome g t := by
  refine .call hname fun u hu => ?_
  rcases ReflTransGen.cases_head hu with rfl | ⟨v, hstep, hrest⟩
  · intro hcanonical
    rw [Canonical.referenceName_head hcanonical] at hname
    cases hname
  · rcases hstep.of_call hname with ⟨definition, body, hd, hbody, harity⟩ | ⟨adt, ha, hnullary, rfl⟩
    · exact absurd harity (Nat.not_le.mpr (hdef definition body hd hbody))
    · cases hargs : t.arguments with
      | nil => exact absurd hnullary (hadt hargs adt ha)
      | cons x xs =>
        rw [hargs] at hrest
        exact (((inert_app_canonical (f := .Adt name [] []) trivial (by simp) (by simp)).apps xs)
          u hrest).1

/-- An application of a normal term that is no function and no call. -/
theorem Outcome.app {f x : Nameless} (h : Outcome g f) (hlam : ∀ b, f ≠ .Lam b)
    (hmat : ∀ c arm fallback, f ≠ .Mat c arm fallback) (hcall : f.head.referenceName = none) :
    Outcome g (.App f x) := by
  cases h with
  | canonical h => exact .inert .refl (inert_app_canonical h hlam hmat)
  | inert hw h => exact .inert (hw.fn x) h.app
  | call hname =>
    rw [hcall] at hname
    cases hname

/-- The minimum of two finished terms that do not meet is finished. -/
theorem Outcome.min (hg : g.Disjoint) {a b : Nameless} (ha : Outcome g a) (hb : Outcome g b)
    (h : ∀ c, ¬Meet a b c) : Outcome g (.Min a b) := by
  refine .inert .refl (inert_min fun a' b' c hra hrb hmeet => ?_)
  cases hmeet with
  | leftNone =>
    obtain rfl := ha.eq_of_reaches hg hra trivial
    exact h _ .leftNone
  | leftMany =>
    obtain rfl := ha.eq_of_reaches hg hra trivial
    exact h _ .leftMany
  | rightNone =>
    obtain rfl := hb.eq_of_reaches hg hrb trivial
    exact h _ .rightNone
  | rightMany =>
    obtain rfl := hb.eq_of_reaches hg hrb trivial
    exact h _ .rightMany
  | lone =>
    obtain rfl := ha.eq_of_reaches hg hra trivial
    obtain rfl := hb.eq_of_reaches hg hrb trivial
    exact h _ .lone

/-- The outcome of a body in front of arguments. -/
def Ends (g : Globals) (body : Nameless) (xs : List Nameless) : Prop :=
  ∀ more, ∃ w, Reaches g (body.apps (xs ++ more)) w ∧ Inert g w

/-- What a spine reaches has the same end. -/
theorem Ends.before {body body' : Nameless} {xs xs' : List Nameless} (h : Ends g body' xs')
    (hr : ∀ more, Reaches g (body.apps (xs ++ more)) (body'.apps (xs' ++ more))) :
    Ends g body xs := by
  intro more
  obtain ⟨w, hw, hinert⟩ := h more
  exact ⟨w, (hr more).trans hw, hinert⟩

/-- **What becomes of a normal term**, and of a blocked body. -/
theorem Whnf.outcome (hg : g.Disjoint) {v : Nameless} (h : Whnf g v) : Outcome g v := by
  refine @Whnf.rec g (fun v _ => Outcome g v) (fun body xs _ => Ends g body xs)
    ?canonical ?free ?datatype ?call ?blocked ?app ?mat ?residual ?rewrite ?min
    ?efq ?stuck ?hit ?miss ?lam ?ann ?bind ?rwt v h
  case canonical => exact fun h => .canonical h
  case free => exact fun h => .inert .refl (inert_free h)
  case datatype =>
    intro f name adt hname hadt hparameters
    refine outcome_call (by rwa [(Nameless.head_of_reference hname).1]) (fun _ adt' hadt' => ?_)
      fun definition body hdef => ?_
    · rw [hadt] at hadt'
      cases hadt'
      exact hparameters
    · rw [hg _ _ hadt] at hdef
      cases hdef
  case call =>
    intro t name hname hadt hdef
    refine outcome_call hname (fun hargs adt hadt' => ?_) hdef
    rw [hadt hargs] at hadt'
    cases hadt'
  case blocked =>
    intro t name definition body hname hdef hbody harity _ ih
    obtain ⟨w, hw, hinert⟩ := ih (t.arguments.drop definition.parameters.length)
    rw [List.take_append_drop] at hw
    exact .inert ((Reaches.unfold hname hdef hbody harity).trans hw) hinert
  case app => exact fun _ hlam hmat hcall ih => ih.app hlam hmat hcall
  case mat => exact fun hx _ hctr ih => .inert .refl (inert_mat (ih.never hg hx hctr))
  case residual =>
    intro c d arm fallback x args hx hne h
    obtain ⟨w, hw, hinert⟩ := h.inert args
    exact .inert ((hx.miss hne).trans hw) hinert
  case rewrite =>
    intro e e' motive body he _ hne ih
    refine .inert .refl (inert_rewrite fun hrfl => hne ?_)
    exact (ih.eq_of_reaches hg (he.through hg hrfl trivial) trivial).symm
  case min => exact fun _ _ h iha ihb => iha.min hg ihb h
  case efq => exact fun more => ⟨_, .refl, inert_efq _ _⟩
  case stuck =>
    intro c arm fallback x x' xs hx _ hctr ih more
    exact ⟨_, .refl, (inert_mat (ih.never hg hx hctr)).apps _⟩
  case hit =>
    intro c arm fallback x xs args hx _ ih
    refine ih.before fun more => ?_
    rw [List.append_assoc, Nameless.apps_append arm]
    exact hx.hit.apps _
  case miss => exact fun hx hne _ ih => ih.before fun more => (hx.miss hne).apps _
  case lam => exact fun _ ih => ih.before fun more => (Step.reaches .beta).apps _
  case ann => exact fun _ ih => ih.before fun more => (Step.reaches .ann).apps _
  case bind => exact fun _ ih => ih.before fun more => (Step.reaches .bind).apps _
  case rwt => exact fun he _ ih => ih.before fun more => he.rewrite.apps _

/-- **A normal term stays**: it becomes no canonical term that it is not. -/
theorem Whnf.eq_of_reaches (hg : g.Disjoint) {v u : Nameless} (h : Whnf g v)
    (hu : Reaches g v u) (hcanonical : u.Canonical) : u = v :=
  (h.outcome hg).eq_of_reaches hg hu hcanonical

end Outcome

end TeamyBend.Kernel
