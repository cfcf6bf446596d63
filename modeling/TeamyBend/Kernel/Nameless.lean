/-
# Terms without the names of their binders

Two terms that differ in the numbers of their binders only are the same nameless term: a bound
variable is the distance to its binder and a free one keeps its number.  Substitution for a bound
variable is then capture-avoiding by construction, since no name is there to be captured.

A `Scope` says what every free variable of a term becomes.  `substitute` renames nothing, so it
agrees with the substitution of nameless terms only where no binder of the term has the number of
a free variable of what is put in; that is the side condition of `strip_substitute_free`.
-/
import TeamyBend.Kernel.Head

namespace TeamyBend.Kernel

/-! ## 1. Nameless terms -/

/-- `Term` up to the numbers and names of binders. -/
inductive Nameless where
  | free (id : Nat)
  | bound (index : Nat)
  | Ref (name : String)
  | GpuRef (name : String)
  | Typ (g : Nameless)
  | Qnt
  | Qua (q : Quant)
  | Min (a b : Nameless)
  | All (quant : Quant) (domain body : Nameless)
  | Lam (body : Nameless)
  | App (f x : Nameless)
  | Adt (name : String) (args : List Nameless) (excluded : List String)
  | Ctr (name : String) (args : List Nameless)
  | Mat (constructor : String) (arm fallback : Nameless)
  | Efq
  | Eql (left right ty : Nameless)
  | Rfl
  | Rwt (evidence motive body : Nameless)
  | Hole (name : String)
  | Ann (value ty : Nameless)
  | Let (quants : List Quant) (values : List Nameless) (body : Nameless)

namespace Nameless

mutual

/-- Put the values for the variables bound `k` binders up. -/
def instantiate (k : Nat) (vs : List Nameless) : Nameless → Nameless
  | .bound i => if i < k then .bound i else vs.getD (i - k) (.bound (i - vs.length))
  | .Typ g => .Typ (instantiate k vs g)
  | .Min a b => .Min (instantiate k vs a) (instantiate k vs b)
  | .All quant domain body =>
    .All quant (instantiate k vs domain) (instantiate (k + 1) vs body)
  | .Lam body => .Lam (instantiate (k + 1) vs body)
  | .App f x => .App (instantiate k vs f) (instantiate k vs x)
  | .Adt name args excluded => .Adt name (instantiateArgs k vs args) excluded
  | .Ctr name args => .Ctr name (instantiateArgs k vs args)
  | .Mat constructor arm fallback =>
    .Mat constructor (instantiate k vs arm) (instantiate k vs fallback)
  | .Eql left right ty =>
    .Eql (instantiate k vs left) (instantiate k vs right) (instantiate k vs ty)
  | .Rwt evidence motive body =>
    .Rwt (instantiate k vs evidence) (instantiate k vs motive) (instantiate k vs body)
  | .Ann value ty => .Ann (instantiate k vs value) (instantiate k vs ty)
  | .Let quants values body =>
    .Let quants (instantiateArgs k vs values) (instantiate (k + quants.length) vs body)
  | t => t

/-- `instantiate` on an argument list. -/
def instantiateArgs (k : Nat) (vs : List Nameless) : List Nameless → List Nameless
  | [] => []
  | a :: args => instantiate k vs a :: instantiateArgs k vs args

end

attribute [local simp] instantiate instantiateArgs

@[simp] theorem instantiateArgs_eq (k : Nat) (vs args : List Nameless) :
    instantiateArgs k vs args = args.map (instantiate k vs) := by
  induction args with
  | nil => rfl
  | cons a args ih => simp [instantiateArgs, ih]

end Nameless

/-! ## 2. Scopes -/

/-- What a variable becomes: a bound variable, or a term without bound variables of its own. -/
inductive Slot where
  | bound (index : Nat)
  | term (t : Nameless)

namespace Slot

/-- The variable as a term. -/
def toNameless : Slot → Nameless
  | bound i => .bound i
  | term t => t

/-- One binder further in. -/
def shift : Slot → Slot
  | bound i => bound (i + 1)
  | term t => term t

/-- `Nameless.instantiate` of a variable. -/
def inst (k : Nat) (vs : List Nameless) : Slot → Slot
  | bound i =>
    if i < k then bound i else (vs[i - k]?).elim (bound (i - vs.length)) term
  | term t => term t

/-- A bound variable or a number. -/
def Plain : Slot → Prop
  | bound _ => True
  | term t => ∃ id, t = .free id

theorem Plain.shift {slot : Slot} (h : slot.Plain) : slot.shift.Plain := by
  cases slot with
  | bound i => exact trivial
  | term t => exact h

/-- Shifting and instantiating commute. -/
theorem inst_shift (k : Nat) (vs : List Nameless) (slot : Slot) :
    slot.shift.inst (k + 1) vs = (slot.inst k vs).shift := by
  cases slot with
  | term t => rfl
  | bound i =>
    by_cases hk : i < k
    · simp [shift, inst, hk]
    · by_cases hlen : i - k < vs.length
      · simp [shift, inst, hk, hlen]
      · have hsub : i + 1 - vs.length = i - vs.length + 1 := by omega
        simp [shift, inst, hk, hlen, hsub]

/-- Instantiating a slot instantiates its term. -/
theorem toNameless_inst {slot : Slot} (h : slot.Plain) (k : Nat) (vs : List Nameless) :
    (slot.inst k vs).toNameless = slot.toNameless.instantiate k vs := by
  cases slot with
  | term t =>
    obtain ⟨id, rfl⟩ := h
    rfl
  | bound i =>
    by_cases hk : i < k
    · simp [inst, toNameless, Nameless.instantiate, hk]
    · by_cases hlen : i - k < vs.length
      · simp [inst, toNameless, Nameless.instantiate, hk, hlen]
      · simp [inst, toNameless, Nameless.instantiate, hk, hlen]

end Slot

/-- What each free variable of a term becomes. -/
abbrev Scope := Nat → Slot

namespace Scope

/-- Every variable is free. -/
def free : Scope := fun id => .term (.free id)

/-- Under one binder. -/
def push (s : Scope) (id : Nat) : Scope := fun y => if y = id then .bound 0 else (s y).shift

/-- Under several binders of one `let`; the first one with a number is the one that binds it. -/
def pushAll (s : Scope) : List Nat → Scope
  | [] => s
  | id :: ids => (s.pushAll ids).push id

/-- One variable becomes something else. -/
def set (s : Scope) (id : Nat) (slot : Slot) : Scope := fun y => if y = id then slot else s y

/-- Variables become terms, the first of the list last. -/
def setAll (s : Scope) : List Nat → List Nameless → Scope
  | id :: ids, v :: vs => (s.setAll ids vs).set id (.term v)
  | _, _ => s

/-- `Slot.inst` everywhere. -/
def inst (k : Nat) (vs : List Nameless) (s : Scope) : Scope := fun y => (s y).inst k vs

@[simp] theorem push_self (s : Scope) (id : Nat) : s.push id id = .bound 0 := if_pos rfl

theorem push_of_ne (s : Scope) {id y : Nat} (h : y ≠ id) : s.push id y = (s y).shift := if_neg h

@[simp] theorem set_self (s : Scope) (id : Nat) (slot : Slot) : s.set id slot id = slot :=
  if_pos rfl

theorem set_of_ne (s : Scope) {id y : Nat} (slot : Slot) (h : y ≠ id) : s.set id slot y = s y :=
  if_neg h

theorem push_set_self (s : Scope) (id : Nat) (slot : Slot) :
    (s.set id slot).push id = s.push id := by
  funext y
  by_cases hy : y = id
  · rw [hy, push_self, push_self]
  · rw [push_of_ne _ hy, push_of_ne _ hy, set_of_ne _ _ hy]

/-- What another variable is set to is shifted by a binder. -/
theorem push_set_of_ne (s : Scope) {id x : Nat} (slot : Slot) (h : x ≠ id) :
    (s.set x slot).push id = (s.push id).set x slot.shift := by
  funext y
  by_cases hx : y = x
  · rw [hx, set_self, push_of_ne _ h, set_self]
  · rw [set_of_ne _ _ hx]
    by_cases hy : y = id
    · rw [hy, push_self, push_self]
    · rw [push_of_ne _ hy, push_of_ne _ hy, set_of_ne _ _ hx]

theorem inst_push (k : Nat) (vs : List Nameless) (s : Scope) (id : Nat) :
    (s.push id).inst (k + 1) vs = (s.inst k vs).push id := by
  funext y
  by_cases hy : y = id
  · simp [inst, hy, Slot.inst]
  · simp only [inst, push_of_ne _ hy]
    exact Slot.inst_shift k vs (s y)

theorem inst_pushAll (k : Nat) (vs : List Nameless) (s : Scope) (ids : List Nat) :
    (s.pushAll ids).inst (k + ids.length) vs = (s.inst k vs).pushAll ids := by
  induction ids with
  | nil => rfl
  | cons id ids ih =>
    rw [pushAll, List.length_cons, ← Nat.add_assoc, inst_push, ih]
    rfl

/-- Every slot is a bound variable or a number. -/
def Plain (s : Scope) : Prop := ∀ y, (s y).Plain

theorem plain_free : free.Plain := fun y => ⟨y, rfl⟩

theorem Plain.push {s : Scope} (h : s.Plain) (id : Nat) : (s.push id).Plain := by
  intro y
  by_cases hy : y = id
  · rw [hy, push_self]
    exact trivial
  · rw [push_of_ne _ hy]
    exact (h y).shift

theorem Plain.pushAll {s : Scope} (h : s.Plain) (ids : List Nat) : (s.pushAll ids).Plain := by
  induction ids with
  | nil => exact h
  | cons id ids ih => exact ih.push id

/-- Under binders only the other variables matter. -/
theorem pushAll_congr {s s' : Scope} {ids : List Nat} {y : Nat} (h : y ∉ ids → s y = s' y) :
    s.pushAll ids y = s'.pushAll ids y := by
  induction ids with
  | nil => exact h (by simp)
  | cons id ids ih =>
    by_cases hy : y = id
    · rw [pushAll, pushAll, hy, push_self, push_self]
    · rw [pushAll, pushAll, push_of_ne _ hy, push_of_ne _ hy]
      rw [ih fun hmem => h (by simp [hy, hmem])]

end Scope

/-! ## 3. Forgetting the names -/

mutual

/-- The nameless term of a term. -/
def strip (s : Scope) : Term → Nameless
  | .Var _ id => (s id).toNameless
  | .Ref name => .Ref name
  | .GpuRef name => .GpuRef name
  | .Typ g => .Typ (strip s g)
  | .Qnt => .Qnt
  | .Qua q => .Qua q
  | .Min a b => .Min (strip s a) (strip s b)
  | .All quant _ id domain body => .All quant (strip s domain) (strip (s.push id) body)
  | .Lam _ id body => .Lam (strip (s.push id) body)
  | .App f x => .App (strip s f) (strip s x)
  | .Adt name args excluded => .Adt name (stripArgs s args) excluded
  | .Ctr name args => .Ctr name (stripArgs s args)
  | .Mat constructor arm fallback => .Mat constructor (strip s arm) (strip s fallback)
  | .Efq => .Efq
  | .Eql left right ty => .Eql (strip s left) (strip s right) (strip s ty)
  | .Rfl => .Rfl
  | .Rwt evidence motive body => .Rwt (strip s evidence) (strip s motive) (strip s body)
  | .Hole name => .Hole name
  | .Ann value ty => .Ann (strip s value) (strip s ty)
  | .Let bindings body =>
    .Let (bindings.map (·.quant)) (stripBindings s bindings)
      (strip (s.pushAll (bindings.map (·.id))) body)

/-- `strip` on an argument list. -/
def stripArgs (s : Scope) : List Term → List Nameless
  | [] => []
  | a :: args => strip s a :: stripArgs s args

/-- `strip` on the values of a `let`. -/
def stripBindings (s : Scope) : List (LetBinding Term) → List Nameless
  | [] => []
  | ⟨_, _, _, value⟩ :: bindings => strip s value :: stripBindings s bindings

end

attribute [local simp] strip stripArgs stripBindings

@[simp] theorem stripArgs_eq (s : Scope) (args : List Term) :
    stripArgs s args = args.map (strip s) := by
  induction args with
  | nil => rfl
  | cons a args ih => simp [stripArgs, ih]

@[simp] theorem stripBindings_eq (s : Scope) (bindings : List (LetBinding Term)) :
    stripBindings s bindings = bindings.map fun b => strip s b.value := by
  induction bindings with
  | nil => rfl
  | cons b bindings ih => simp [stripBindings, ih]

/-- The term, with every free variable free. -/
def nameless (t : Term) : Nameless := strip .free t

/-- Only the free variables matter. -/
theorem strip_congr {s s' : Scope} {t : Term} (h : ∀ id, FreeIn id t → s id = s' id) :
    strip s t = strip s' t := by
  induction t generalizing s s' with
  | Var name id => simp [strip, h id .var]
  | Ref | GpuRef | Qnt | Qua | Efq | Rfl | Hole => rfl
  | Typ g ih => simp [strip, ih fun id hid => h id (.typ hid)]
  | Min a b iha ihb =>
    simp [strip, iha fun id hid => h id (.minL hid), ihb fun id hid => h id (.minR hid)]
  | All q name x d b ihd ihb =>
    have hb : strip (s.push x) b = strip (s'.push x) b := by
      refine ihb fun id hid => ?_
      by_cases hx : id = x
      · rw [hx, Scope.push_self, Scope.push_self]
      · rw [Scope.push_of_ne _ hx, Scope.push_of_ne _ hx, h id (.codomain hx hid)]
    simp [strip, ihd fun id hid => h id (.domain hid), hb]
  | Lam name x b ihb =>
    have hb : strip (s.push x) b = strip (s'.push x) b := by
      refine ihb fun id hid => ?_
      by_cases hx : id = x
      · rw [hx, Scope.push_self, Scope.push_self]
      · rw [Scope.push_of_ne _ hx, Scope.push_of_ne _ hx, h id (.lam hx hid)]
    simp [strip, hb]
  | App f x ihf ihx =>
    simp [strip, ihf fun id hid => h id (.fn hid), ihx fun id hid => h id (.arg hid)]
  | Adt name args ex ih =>
    have hargs : args.map (strip s) = args.map (strip s') :=
      List.map_congr_left fun a ha => ih a ha fun id hid => h id (.adt ha hid)
    simp [strip, hargs]
  | Ctr name args ih =>
    have hargs : args.map (strip s) = args.map (strip s') :=
      List.map_congr_left fun a ha => ih a ha fun id hid => h id (.ctr ha hid)
    simp [strip, hargs]
  | Mat c a f iha ihf =>
    simp [strip, iha fun id hid => h id (.arm hid), ihf fun id hid => h id (.fallback hid)]
  | Eql l r t ihl ihr iht =>
    simp [strip, ihl fun id hid => h id (.left hid), ihr fun id hid => h id (.right hid),
      iht fun id hid => h id (.ty hid)]
  | Rwt e m b ihe ihm ihb =>
    simp [strip, ihe fun id hid => h id (.evidence hid), ihm fun id hid => h id (.motive hid),
      ihb fun id hid => h id (.body hid)]
  | Ann v t ihv iht =>
    simp [strip, ihv fun id hid => h id (.value hid), iht fun id hid => h id (.annTy hid)]
  | Let bs t ihs iht =>
    have hbs : (bs.map fun b => strip s b.value) = bs.map fun b => strip s' b.value :=
      List.map_congr_left fun b hb => ihs b hb fun id hid => h id (.letValue hb hid)
    have ht : strip (s.pushAll (bs.map (·.id))) t = strip (s'.pushAll (bs.map (·.id))) t := by
      refine iht fun id hid => Scope.pushAll_congr fun hmem => h id (.letBody ?_ hid)
      exact fun b hb heq => hmem (List.mem_map.mpr ⟨b, hb, heq⟩)
    simp [strip, hbs, ht]

/-! ## 4. Substitution -/

section Substitute

variable {P : Scope → Slot → Prop} {x : Nat} {v : Term}

theorem Scope.pushAll_set_of_mem {s : Scope} {ids : List Nat} {slot : Slot} (h : x ∈ ids) :
    (s.set x slot).pushAll ids = s.pushAll ids := by
  funext y
  by_cases hy : y = x
  · exact Scope.pushAll_congr fun hmem => absurd (hy ▸ h) hmem
  · exact Scope.pushAll_congr fun _ => Scope.set_of_ne _ _ hy

/-- Under the binders of a `let` that do not bind `x`, a slot stays what the new term reads as. -/
theorem pushAll_related {s : Scope} {slot : Slot} {ids : List Nat} (hx : x ∉ ids)
    (hpush : ∀ s slot, ∀ id ∈ ids, P s slot → P (s.push id) slot.shift) (h : P s slot) :
    ∃ slot', P (s.pushAll ids) slot' ∧
      (s.set x slot).pushAll ids = (s.pushAll ids).set x slot' := by
  induction ids with
  | nil => exact ⟨slot, h, rfl⟩
  | cons id ids ih =>
    simp only [List.mem_cons, not_or] at hx
    obtain ⟨slot', hslot', heq⟩ :=
      ih hx.2 fun s slot id' hid' => hpush s slot id' (List.mem_cons_of_mem _ hid')
    refine ⟨slot'.shift, hpush _ _ id (by simp) hslot', ?_⟩
    rw [Scope.pushAll, heq, Scope.push_set_of_ne _ _ hx.1]
    rfl

/-- **Substitution in scopes.**  `P s slot` is to say that the new term reads as `slot` in the
scope `s`, and has to survive the binders of the term. -/
theorem strip_substitute {t : Term} {s : Scope} {slot : Slot}
    (hread : ∀ s slot, P s slot → strip s v = slot.toNameless)
    (hpush : ∀ s slot id, BoundIn id t → P s slot → P (s.push id) slot.shift) (h : P s slot) :
    strip s (substitute x v t) = strip (s.set x slot) t := by
  induction t generalizing s slot with
  | Var name id =>
    by_cases hid : id = x
    · simp [substitute, strip, hid, hread s slot h]
    · simp [substitute, strip, hid, Scope.set_of_ne]
  | Ref | GpuRef | Qnt | Qua | Efq | Rfl | Hole => rfl
  | Typ g ih => simp [substitute, strip, ih (fun s slot id hb => hpush s slot id (.typ hb)) h]
  | Min a b iha ihb =>
    simp [substitute, strip, iha (fun s slot id hb => hpush s slot id (.minL hb)) h,
      ihb (fun s slot id hb => hpush s slot id (.minR hb)) h]
  | All q name y d b ihd ihb =>
    have hd := ihd (fun s slot id hb => hpush s slot id (.domain hb)) h
    by_cases hy : y = x
    · simp [substitute, strip, hy, hd, Scope.push_set_self]
    · have hb := ihb (fun s slot id hb => hpush s slot id (.codomain hb)) (hpush s slot y .all h)
      simp [substitute, strip, hy, hd, hb, Scope.push_set_of_ne _ _ (Ne.symm hy)]
  | Lam name y b ihb =>
    by_cases hy : y = x
    · simp [substitute, strip, hy, Scope.push_set_self]
    · have hb := ihb (fun s slot id hb => hpush s slot id (.lamBody hb)) (hpush s slot y .lam h)
      simp [substitute, strip, hy, hb, Scope.push_set_of_ne _ _ (Ne.symm hy)]
  | App f a ihf iha =>
    simp [substitute, strip, ihf (fun s slot id hb => hpush s slot id (.fn hb)) h,
      iha (fun s slot id hb => hpush s slot id (.arg hb)) h]
  | Adt name args ex ih =>
    have hargs := List.map_congr_left fun a ha =>
      ih a ha (fun s slot id hb => hpush s slot id (.adt ha hb)) h
    simpa [substitute, strip] using hargs
  | Ctr name args ih =>
    have hargs := List.map_congr_left fun a ha =>
      ih a ha (fun s slot id hb => hpush s slot id (.ctr ha hb)) h
    simpa [substitute, strip] using hargs
  | Mat c a f iha ihf =>
    simp [substitute, strip, iha (fun s slot id hb => hpush s slot id (.arm hb)) h,
      ihf (fun s slot id hb => hpush s slot id (.fallback hb)) h]
  | Eql l r t ihl ihr iht =>
    simp [substitute, strip, ihl (fun s slot id hb => hpush s slot id (.left hb)) h,
      ihr (fun s slot id hb => hpush s slot id (.right hb)) h,
      iht (fun s slot id hb => hpush s slot id (.ty hb)) h]
  | Rwt e m b ihe ihm ihb =>
    simp [substitute, strip, ihe (fun s slot id hb => hpush s slot id (.evidence hb)) h,
      ihm (fun s slot id hb => hpush s slot id (.motive hb)) h,
      ihb (fun s slot id hb => hpush s slot id (.body hb)) h]
  | Ann a t iha iht =>
    simp [substitute, strip, iha (fun s slot id hb => hpush s slot id (.value hb)) h,
      iht (fun s slot id hb => hpush s slot id (.annTy hb)) h]
  | Let bs t ihs iht =>
    have hids : (bs.map fun b => { b with value := substitute x v b.value }).map (·.id) =
        bs.map (·.id) := by simp [Function.comp_def]
    have hvalues : (bs.map fun b => strip s (substitute x v b.value)) =
        bs.map fun b => strip (s.set x slot) b.value :=
      List.map_congr_left fun b hb =>
        ihs b hb (fun s slot id hbound => hpush s slot id (.letValue hb hbound)) h
    have ht : strip (s.pushAll (bs.map (·.id)))
        (if bs.any (·.id = x) then t else substitute x v t) =
        strip ((s.set x slot).pushAll (bs.map (·.id))) t := by
      by_cases hany : bs.any (·.id = x)
      · have hmem : x ∈ bs.map (·.id) := by simpa using hany
        rw [if_pos hany, Scope.pushAll_set_of_mem hmem]
      · have hmem : x ∉ bs.map (·.id) := by simpa using hany
        have hbinders : ∀ s slot, ∀ id ∈ bs.map (·.id), P s slot → P (s.push id) slot.shift := by
          intro s slot id hid
          obtain ⟨b, hb, rfl⟩ := List.mem_map.mp hid
          exact hpush s slot b.id (.letBinder hb rfl)
        obtain ⟨slot', hslot', heq⟩ := pushAll_related hmem hbinders h
        rw [if_neg hany, heq]
        exact iht (fun s slot id hb => hpush s slot id (.letBody hb)) hslot'
    simp only [substitute, strip, substituteBindings_eq, stripBindings_eq, hids, ht, List.map_map,
      Function.comp_def, hvalues]

end Substitute

/-- A variable for a variable: the new one must not be bound in the term. -/
theorem strip_rename {t : Term} {s : Scope} {x y : Nat} {name : String} (hy : ¬BoundIn y t) :
    strip s (substitute x (.Var name y) t) = strip (s.set x (s y)) t := by
  refine strip_substitute (P := fun s slot => s y = slot) ?_ ?_ rfl
  · rintro s slot rfl
    rfl
  · rintro s slot id hid rfl
    exact Scope.push_of_ne _ fun h => hy (h ▸ hid)

/-- A term for a variable: no free variable of the new one may be bound in the term. -/
theorem strip_substitute_free {t v : Term} {s : Scope} {x : Nat}
    (hfree : ∀ id, FreeIn id v → s id = .term (.free id))
    (hbound : ∀ id, FreeIn id v → ¬BoundIn id t) :
    strip s (substitute x v t) = strip (s.set x (.term (nameless v))) t := by
  refine strip_substitute (P := fun s slot => slot = .term (nameless v) ∧
    ∀ id, FreeIn id v → s id = .term (.free id)) ?_ ?_ ⟨rfl, hfree⟩
  · rintro s slot ⟨rfl, hs⟩
    exact strip_congr hs
  · rintro s slot id hid ⟨rfl, hs⟩
    refine ⟨rfl, fun y hy => ?_⟩
    have hne : y ≠ id := fun h => hbound y hy (h ▸ hid)
    rw [Scope.push_of_ne _ hne, hs y hy]
    rfl

/-! ## 5. Instantiation -/

/-- Instantiation of the nameless term is the term in another scope. -/
theorem instantiate_strip {t : Term} {s : Scope} (hs : s.Plain) (k : Nat) (vs : List Nameless) :
    (strip s t).instantiate k vs = strip (s.inst k vs) t := by
  induction t generalizing s k with
  | Var name id => exact (Slot.toNameless_inst (hs id) k vs).symm
  | Ref | GpuRef | Qnt | Qua | Efq | Rfl | Hole => rfl
  | Typ g ih => simp [strip, Nameless.instantiate, ih hs]
  | Min a b iha ihb => simp [strip, Nameless.instantiate, iha hs, ihb hs]
  | All q name x d b ihd ihb =>
    simp [strip, Nameless.instantiate, ihd hs, ihb (hs.push x), Scope.inst_push]
  | Lam name x b ihb =>
    simp [strip, Nameless.instantiate, ihb (hs.push x), Scope.inst_push]
  | App f x ihf ihx => simp [strip, Nameless.instantiate, ihf hs, ihx hs]
  | Adt name args ex ih =>
    have hargs := List.map_congr_left fun a ha => ih a ha hs k
    simpa [strip, Nameless.instantiate] using hargs
  | Ctr name args ih =>
    have hargs := List.map_congr_left fun a ha => ih a ha hs k
    simpa [strip, Nameless.instantiate] using hargs
  | Mat c a f iha ihf => simp [strip, Nameless.instantiate, iha hs, ihf hs]
  | Eql l r t ihl ihr iht => simp [strip, Nameless.instantiate, ihl hs, ihr hs, iht hs]
  | Rwt e m b ihe ihm ihb => simp [strip, Nameless.instantiate, ihe hs, ihm hs, ihb hs]
  | Ann v t ihv iht => simp [strip, Nameless.instantiate, ihv hs, iht hs]
  | Let bs t ihs iht =>
    have hvalues := List.map_congr_left fun b hb => ihs b hb hs k
    have ht := iht (hs.pushAll (bs.map (·.id))) (k + bs.length)
    have hinst := Scope.inst_pushAll k vs s (bs.map (·.id))
    rw [List.length_map] at hinst
    rw [hinst] at ht
    simpa [strip, Nameless.instantiate, ht] using hvalues

/-- Values for the binders of a `let`. -/
theorem Scope.inst_pushAll_free (ids : List Nat) (vs : List Nameless)
    (h : ids.length = vs.length) :
    (Scope.free.pushAll ids).inst 0 vs = Scope.free.setAll ids vs := by
  induction ids generalizing vs with
  | nil => rfl
  | cons id ids ih =>
    cases vs with
    | nil => simp at h
    | cons v vs =>
      have htail := ih vs (by simpa using h)
      funext y
      by_cases hy : y = id
      · simp [Scope.inst, Scope.pushAll, Scope.setAll, hy, Slot.inst]
      · have hy' := congrFun htail y
        simp only [Scope.inst] at hy'
        simp only [Scope.inst, Scope.pushAll, Scope.setAll, Scope.push_of_ne _ hy,
          Scope.set_of_ne _ _ hy, ← hy']
        cases Scope.free.pushAll ids y with
        | bound i => simp [Slot.shift, Slot.inst]
        | term t => rfl

/-- A contracted lambda. -/
theorem nameless_substitute {x : Nat} {v t : Term} (h : ∀ id, FreeIn id v → ¬BoundIn id t) :
    nameless (substitute x v t) =
      (strip (Scope.free.push x) t).instantiate 0 [nameless v] := by
  rw [instantiate_strip (Scope.plain_free.push x), nameless,
    strip_substitute_free (s := Scope.free) (fun _ _ => rfl) h]
  exact congrArg (strip · t) (Scope.inst_pushAll_free [x] [nameless v] rfl).symm

/-! ## 6. Tidy terms -/

/-- The free numbers of the term are in `F` and no binder of it has a number of `F`. -/
structure Tidy (F : Nat → Prop) (t : Term) : Prop where
  free : ∀ id, FreeIn id t → F id
  bound : ∀ id, BoundIn id t → ¬F id

section Tidy

variable {F : Nat → Prop}

theorem Tidy.part {s t : Term} (h : Tidy F t) (hfree : ∀ id, FreeIn id s → FreeIn id t)
    (hbound : ∀ id, BoundIn id s → BoundIn id t) : Tidy F s :=
  ⟨fun id hid => h.free id (hfree id hid), fun id hid => h.bound id (hbound id hid)⟩

/-- Tidy terms can be put into each other. -/
theorem Tidy.apart {s t : Term} (hs : Tidy F s) (hbound : ∀ id, BoundIn id t → ¬F id) (id : Nat)
    (hid : FreeIn id s) : ¬BoundIn id t := fun h => hbound id h (hs.free id hid)

/-- A tidy body stays tidy when a tidy value is put in. -/
theorem Tidy.substitute {name : String} {x : Nat} {v t : Term} (h : Tidy F (.Lam name x t))
    (hv : Tidy F v) : Tidy F (substitute x v t) where
  free id hid := by
    rcases hid.of_substitute with ⟨hfree, hne⟩ | hfree
    · exact h.free id (.lam hne hfree)
    · exact hv.free id hfree
  bound id hid := by
    rcases hid.of_substitute with hbound | hbound
    · exact h.bound id (.lamBody hbound)
    · exact hv.bound id hbound

/-- **A contracted lambda** is an instantiation. -/
theorem Tidy.nameless_substitute {name : String} {x : Nat} {v t : Term}
    (h : Tidy F (.Lam name x t)) (hv : Tidy F v) :
    nameless (Kernel.substitute x v t) =
      (strip (Scope.free.push x) t).instantiate 0 [nameless v] :=
  Kernel.nameless_substitute (hv.apart fun id hid => h.bound id (.lamBody hid))

/-- What is free after a let is expanded was free in it. -/
theorem FreeIn.of_expand {id : Nat} {bindings : List (LetBinding Term)} {body : Term}
    (h : FreeIn id (expand bindings body)) : FreeIn id (.Let bindings body) := by
  induction bindings generalizing body with
  | nil => exact .letBody (by simp) h
  | cons b bindings ih =>
    have hrest : FreeIn id (.Let bindings (substitute b.id b.value body)) := ih h
    cases hrest with
    | letValue hmem hfree => exact .letValue (List.mem_cons_of_mem _ hmem) hfree
    | letBody hkeep hfree =>
      rcases hfree.of_substitute with ⟨hbody, hne⟩ | hvalue
      · refine .letBody (fun c hc => ?_) hbody
        rcases List.mem_cons.mp hc with rfl | hc
        · exact Ne.symm hne
        · exact hkeep c hc
      · exact .letValue (List.mem_cons_self ..) hvalue

/-- What is bound after a let is expanded was bound in it. -/
theorem BoundIn.of_expand {id : Nat} {bindings : List (LetBinding Term)} {body : Term}
    (h : BoundIn id (expand bindings body)) : BoundIn id (.Let bindings body) := by
  induction bindings generalizing body with
  | nil => exact .letBody h
  | cons b bindings ih =>
    have hrest : BoundIn id (.Let bindings (substitute b.id b.value body)) := ih h
    cases hrest with
    | letBinder hmem hid => exact .letBinder (List.mem_cons_of_mem _ hmem) hid
    | letValue hmem hbound => exact .letValue (List.mem_cons_of_mem _ hmem) hbound
    | letBody hbound =>
      rcases hbound.of_substitute with hbody | hvalue
      · exact .letBody hbody
      · exact .letValue (List.mem_cons_self ..) hvalue

theorem Tidy.expand {bindings : List (LetBinding Term)} {body : Term}
    (h : Tidy F (.Let bindings body)) : Tidy F (expand bindings body) :=
  h.part (fun _ => .of_expand) fun _ => .of_expand

/-- The other variables are left alone. -/
theorem Scope.setAll_of_not_mem {s : Scope} {ids : List Nat} {y : Nat} (h : y ∉ ids)
    (vs : List Nameless) : s.setAll ids vs y = s y := by
  induction ids generalizing vs with
  | nil => rfl
  | cons id ids ih =>
    cases vs with
    | nil => rfl
    | cons v vs =>
      simp only [List.mem_cons, not_or] at h
      exact (Scope.set_of_ne _ _ h.1).trans (ih h.2 vs)

/-- One replacement after the other is one scope. -/
theorem strip_expand {bindings : List (LetBinding Term)} {body : Term} {s : Scope}
    (hbindings : ∀ b ∈ bindings, Tidy F b.value ∧ ¬F b.id) (hbody : ∀ id, BoundIn id body → ¬F id)
    (hs : ∀ id, F id → s id = .term (.free id)) :
    strip s (expand bindings body) =
      strip (s.setAll (bindings.map (·.id)) (bindings.map fun b => nameless b.value)) body := by
  induction bindings generalizing body with
  | nil => rfl
  | cons b bindings ih =>
    obtain ⟨hvalue, -⟩ := hbindings b (List.mem_cons_self ..)
    have hrest : ∀ c ∈ bindings, Tidy F c.value ∧ ¬F c.id :=
      fun c hc => hbindings c (List.mem_cons_of_mem _ hc)
    have hnext : ∀ id, BoundIn id (substitute b.id b.value body) → ¬F id := by
      intro id hid
      rcases hid.of_substitute with hid | hid
      · exact hbody id hid
      · exact hvalue.bound id hid
    calc strip s (expand bindings (substitute b.id b.value body))
        = strip (s.setAll (bindings.map (·.id)) (bindings.map fun b => nameless b.value))
            (substitute b.id b.value body) := ih hrest hnext
      _ = _ := by
        refine strip_substitute_free (fun id hid => ?_) (hvalue.apart hbody)
        rw [Scope.setAll_of_not_mem, hs id (hvalue.free id hid)]
        intro hmem
        obtain ⟨c, hc, rfl⟩ := List.mem_map.mp hmem
        exact (hrest c hc).2 (hvalue.free _ hid)

/-- **An expanded `let`** puts all its values at once. -/
theorem Tidy.nameless_expand {bindings : List (LetBinding Term)} {body : Term}
    (h : Tidy F (.Let bindings body)) :
    nameless (Kernel.expand bindings body) =
      (strip (Scope.free.pushAll (bindings.map (·.id))) body).instantiate 0
        (bindings.map fun b => nameless b.value) := by
  have hbindings : ∀ b ∈ bindings, Tidy F b.value ∧ ¬F b.id := fun b hb =>
    ⟨h.part (fun _ => .letValue hb) fun _ => .letValue hb, h.bound _ (.letBinder hb rfl)⟩
  rw [instantiate_strip (Scope.plain_free.pushAll _), Scope.inst_pushAll_free _ _ (by simp)]
  exact strip_expand hbindings (fun id hid => h.bound id (.letBody hid)) fun _ _ => rfl

end Tidy

end TeamyBend.Kernel
