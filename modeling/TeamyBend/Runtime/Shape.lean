/-
# The comparison behind the host arithmetic

`Shape` in `nat.rs` compares a declaration of a program with the bundled one it stands for: two
terms up to the numbers of their binders and the mark of a GPU reference, with one list of pairs
of numbers for the binders in scope.  A pair is looked up by the number of the actual side only,
which is enough where no binder of the expected side has a number that is in scope there
(`Unshadowed`).

`Compares` is what one part of the comparison does: when it answers `true`, which pairs it
leaves, and which names it has noted.  A term that is compared with success leaves the pairs it
found (`compares_term`).
-/
import TeamyBend.Kernel.Comparing
import Mathlib.Data.List.Sort

namespace TeamyBend.Runtime

open Kernel

/-! ## 1. The source -/

/-- `struct Shape`. -/
structure Shape where
  bindings : List (Nat × Nat) := []
  references : List String := []

namespace Shape

/-- One part of a comparison. -/
abbrev Comparison := Shape → Bool × Shape

/-- A test that the state has no part in. -/
def holds (result : Bool) : Comparison := fun self => (result, self)

/-- `first && second`, and also a test with an early `return false`. -/
def both (first second : Comparison) : Comparison := fun self =>
  match first self with
  | (true, self) => second self
  | (false, self) => (false, self)

/-- `self.references.insert(name)`, in the order of the set. -/
def refer (name : String) (next : Comparison) : Comparison := fun self =>
  next { self with references :=
    if name ∈ self.references then self.references
    else self.references.orderedInsert (· ≤ ·) name }

/-- `self.bindings.push(..)` and `self.bindings.pop()` around a comparison. -/
def underBinder (actual expected : Nat) (inner : Comparison) : Comparison := fun self =>
  let (result, self) := inner { self with bindings := self.bindings ++ [(actual, expected)] }
  (result, { self with bindings := self.bindings.dropLast })

/-- `self.bindings.extend(..)` and `self.bindings.truncate(start)` around a comparison. -/
def underBinders (pairs : List (Nat × Nat)) (inner : Comparison) : Comparison := fun self =>
  let start := self.bindings.length
  let (result, self) := inner { self with bindings := self.bindings ++ pairs }
  (result, { self with bindings := self.bindings.take start })

/-- The comparison of two variables. -/
def sameVariable (actual expected : Nat) : Comparison := fun self =>
  ((self.bindings.reverse.find? (·.1 == actual)).any (·.2 == expected), self)

/-- The comparison of two references. -/
def sameReference (actual expected : String) : Comparison :=
  refer expected (holds (actual == expected))

mutual

/-- `Shape::term`. -/
def term : Term → Term → Comparison
  | .Var _ actual, other =>
    match other with
    | .Var _ expected => sameVariable actual expected
    | _ => holds false
  | .Ref actual, other =>
    match other with
    | .Ref expected => sameReference actual expected
    | .GpuRef expected => sameReference actual expected
    | _ => holds false
  | .GpuRef actual, other =>
    match other with
    | .Ref expected => sameReference actual expected
    | .GpuRef expected => sameReference actual expected
    | _ => holds false
  | .Typ actual, other =>
    match other with
    | .Typ expected => term actual expected
    | _ => holds false
  | .Qua actual, other =>
    match other with
    | .Qua expected => holds (actual == expected)
    | _ => holds false
  | .Qnt, other =>
    match other with
    | .Qnt => holds true
    | _ => holds false
  | .Efq, other =>
    match other with
    | .Efq => holds true
    | _ => holds false
  | .Rfl, other =>
    match other with
    | .Rfl => holds true
    | _ => holds false
  | .App actual₁ actual₂, other =>
    match other with
    | .App expected₁ expected₂ => both (term actual₁ expected₁) (term actual₂ expected₂)
    | _ => holds false
  | .Ann actual₁ actual₂, other =>
    match other with
    | .Ann expected₁ expected₂ => both (term actual₁ expected₁) (term actual₂ expected₂)
    | _ => holds false
  | .Min actual₁ actual₂, other =>
    match other with
    | .Min expected₁ expected₂ => both (term actual₁ expected₁) (term actual₂ expected₂)
    | _ => holds false
  | .Ctr actual args, other =>
    match other with
    | .Ctr expected args' =>
      both (holds (actual == expected))
        (both (holds (args.length == args'.length)) (eachTerm args args'))
    | _ => holds false
  | .Adt actual args excluded, other =>
    match other with
    | .Adt expected args' excluded' =>
      refer expected (both (holds (actual == expected)) (both (holds (excluded == excluded'))
        (both (holds (args.length == args'.length)) (eachTerm args args'))))
    | _ => holds false
  | .All quant _ actual domain body, other =>
    match other with
    | .All quant' _ expected domain' body' =>
      both (holds (quant == quant')) (both (term domain domain')
        (underBinder actual expected (term body body')))
    | _ => holds false
  | .Lam _ actual body, other =>
    match other with
    | .Lam _ expected body' => underBinder actual expected (term body body')
    | _ => holds false
  | .Mat constructor arm fallback, other =>
    match other with
    | .Mat constructor' arm' fallback' =>
      both (holds (constructor == constructor')) (both (term arm arm') (term fallback fallback'))
    | _ => holds false
  | .Let bindings body, other =>
    match other with
    | .Let bindings' body' =>
      both (holds (bindings.length == bindings'.length)) (both (eachBinding bindings bindings')
        (underBinders ((bindings.map (·.id)).zip (bindings'.map (·.id))) (term body body')))
    | _ => holds false
  | .Eql actual₁ actual₂ actual₃, other =>
    match other with
    | .Eql expected₁ expected₂ expected₃ =>
      both (term actual₁ expected₁) (both (term actual₂ expected₂) (term actual₃ expected₃))
    | _ => holds false
  | .Rwt actual₁ actual₂ actual₃, other =>
    match other with
    | .Rwt expected₁ expected₂ expected₃ =>
      both (term actual₁ expected₁) (both (term actual₂ expected₂) (term actual₃ expected₃))
    | _ => holds false
  | .Hole _, _ => holds false

/-- The loop of `Shape::terms`. -/
def eachTerm : List Term → List Term → Comparison
  | actual :: args, other =>
    match other with
    | expected :: args' => both (term actual expected) (eachTerm args args')
    | [] => holds true
  | [], _ => holds true

/-- The loop over the bindings of two `let`s. -/
def eachBinding : List (LetBinding Term) → List (LetBinding Term) → Comparison
  | ⟨quant, _, _, value⟩ :: bindings, other =>
    match other with
    | ⟨quant', _, _, value'⟩ :: bindings' =>
      both (holds (quant == quant')) (both (term value value') (eachBinding bindings bindings'))
    | [] => holds true
  | [], _ => holds true

end

attribute [local simp] term eachTerm eachBinding

/-- Terms of different kinds are not compared. -/
theorem term_of_letter_ne {a e : Term} (h : a.letter ≠ e.letter) : term a e = holds false := by
  cases a <;> cases e <;> first
    | rfl
    | exact absurd rfl h

end Shape

/-! ## 2. What the comparison is about -/

mutual

/-- The nameless term with every GPU reference a reference. -/
def unmark : Nameless → Nameless
  | .GpuRef name => .Ref name
  | .Typ g => .Typ (unmark g)
  | .Min a b => .Min (unmark a) (unmark b)
  | .All quant domain body => .All quant (unmark domain) (unmark body)
  | .Lam body => .Lam (unmark body)
  | .App f x => .App (unmark f) (unmark x)
  | .Adt name args excluded => .Adt name (unmarkArgs args) excluded
  | .Ctr name args => .Ctr name (unmarkArgs args)
  | .Mat constructor arm fallback => .Mat constructor (unmark arm) (unmark fallback)
  | .Eql left right ty => .Eql (unmark left) (unmark right) (unmark ty)
  | .Rwt evidence motive body => .Rwt (unmark evidence) (unmark motive) (unmark body)
  | .Ann value ty => .Ann (unmark value) (unmark ty)
  | .Let quants values body => .Let quants (unmarkArgs values) (unmark body)
  | t => t

/-- `unmark` on an argument list. -/
def unmarkArgs : List Nameless → List Nameless
  | [] => []
  | a :: args => unmark a :: unmarkArgs args

end

attribute [local simp] unmark unmarkArgs

@[simp] theorem unmarkArgs_eq (args : List Nameless) : unmarkArgs args = args.map unmark := by
  induction args with
  | nil => rfl
  | cons a args ih => simp [ih]

mutual

/-- The term has no hole, which the source never takes for another. -/
def Holeless : Term → Prop
  | .Typ g => Holeless g
  | .Min a b => Holeless a ∧ Holeless b
  | .All _ _ _ domain body => Holeless domain ∧ Holeless body
  | .Lam _ _ body => Holeless body
  | .App f x => Holeless f ∧ Holeless x
  | .Adt _ args _ => HolelessArgs args
  | .Ctr _ args => HolelessArgs args
  | .Mat _ arm fallback => Holeless arm ∧ Holeless fallback
  | .Eql left right ty => Holeless left ∧ Holeless right ∧ Holeless ty
  | .Rwt evidence motive body => Holeless evidence ∧ Holeless motive ∧ Holeless body
  | .Ann value ty => Holeless value ∧ Holeless ty
  | .Let bindings body => HolelessBindings bindings ∧ Holeless body
  | .Hole _ => False
  | _ => True

/-- `Holeless` on an argument list. -/
def HolelessArgs : List Term → Prop
  | [] => True
  | a :: args => Holeless a ∧ HolelessArgs args

/-- `Holeless` on the values of a `let`. -/
def HolelessBindings : List (LetBinding Term) → Prop
  | [] => True
  | ⟨_, _, _, value⟩ :: bindings => Holeless value ∧ HolelessBindings bindings

end

attribute [local simp] Holeless HolelessArgs HolelessBindings

mutual

/-- The names of definitions and datatypes that a term refers to. -/
def mentions : Term → List String
  | .Ref name => [name]
  | .GpuRef name => [name]
  | .Typ g => mentions g
  | .Min a b => mentions a ++ mentions b
  | .All _ _ _ domain body => mentions domain ++ mentions body
  | .Lam _ _ body => mentions body
  | .App f x => mentions f ++ mentions x
  | .Adt name args _ => name :: mentionsArgs args
  | .Ctr _ args => mentionsArgs args
  | .Mat _ arm fallback => mentions arm ++ mentions fallback
  | .Eql left right ty => mentions left ++ (mentions right ++ mentions ty)
  | .Rwt evidence motive body => mentions evidence ++ (mentions motive ++ mentions body)
  | .Ann value ty => mentions value ++ mentions ty
  | .Let bindings body => mentionsBindings bindings ++ mentions body
  | _ => []

/-- `mentions` on an argument list. -/
def mentionsArgs : List Term → List String
  | [] => []
  | a :: args => mentions a ++ mentionsArgs args

/-- `mentions` on the values of a `let`. -/
def mentionsBindings : List (LetBinding Term) → List String
  | [] => []
  | ⟨_, _, _, value⟩ :: bindings => mentions value ++ mentionsBindings bindings

end

attribute [local simp] mentions mentionsArgs mentionsBindings

mutual

/-- No binder of the term has a number that is in scope where it stands. -/
def Unshadowed (scope : List Nat) : Term → Prop
  | .Typ g => Unshadowed scope g
  | .Min a b => Unshadowed scope a ∧ Unshadowed scope b
  | .All _ _ id domain body =>
    Unshadowed scope domain ∧ id ∉ scope ∧ Unshadowed (scope ++ [id]) body
  | .Lam _ id body => id ∉ scope ∧ Unshadowed (scope ++ [id]) body
  | .App f x => Unshadowed scope f ∧ Unshadowed scope x
  | .Adt _ args _ => UnshadowedArgs scope args
  | .Ctr _ args => UnshadowedArgs scope args
  | .Mat _ arm fallback => Unshadowed scope arm ∧ Unshadowed scope fallback
  | .Eql left right ty => Unshadowed scope left ∧ Unshadowed scope right ∧ Unshadowed scope ty
  | .Rwt evidence motive body =>
    Unshadowed scope evidence ∧ Unshadowed scope motive ∧ Unshadowed scope body
  | .Ann value ty => Unshadowed scope value ∧ Unshadowed scope ty
  | .Let bindings body =>
    UnshadowedBindings scope bindings ∧ (scope ++ bindings.map (·.id)).Nodup ∧
      Unshadowed (scope ++ bindings.map (·.id)) body
  | _ => True

/-- `Unshadowed` on an argument list. -/
def UnshadowedArgs (scope : List Nat) : List Term → Prop
  | [] => True
  | a :: args => Unshadowed scope a ∧ UnshadowedArgs scope args

/-- `Unshadowed` on the values of a `let`. -/
def UnshadowedBindings (scope : List Nat) : List (LetBinding Term) → Prop
  | [] => True
  | ⟨_, _, _, value⟩ :: bindings => Unshadowed scope value ∧ UnshadowedBindings scope bindings

end

attribute [local simp] Unshadowed UnshadowedArgs UnshadowedBindings

mutual

/-- The numbers of the binders of a term. -/
def binders : Term → List Nat
  | .Typ g => binders g
  | .Min a b => binders a ++ binders b
  | .All _ _ id domain body => binders domain ++ id :: binders body
  | .Lam _ id body => id :: binders body
  | .App f x => binders f ++ binders x
  | .Adt _ args _ => bindersArgs args
  | .Ctr _ args => bindersArgs args
  | .Mat _ arm fallback => binders arm ++ binders fallback
  | .Eql left right ty => binders left ++ (binders right ++ binders ty)
  | .Rwt evidence motive body => binders evidence ++ (binders motive ++ binders body)
  | .Ann value ty => binders value ++ binders ty
  | .Let bindings body =>
    bindersBindings bindings ++ (bindings.map (·.id) ++ binders body)
  | _ => []

/-- `binders` on an argument list. -/
def bindersArgs : List Term → List Nat
  | [] => []
  | a :: args => binders a ++ bindersArgs args

/-- `binders` on the values of a `let`. -/
def bindersBindings : List (LetBinding Term) → List Nat
  | [] => []
  | ⟨_, _, _, value⟩ :: bindings => binders value ++ bindersBindings bindings

end

attribute [local simp] binders bindersArgs bindersBindings

theorem binders_sublist_args {args : List Term} {a : Term} (h : a ∈ args) :
    (binders a).Sublist (bindersArgs args) := by
  induction args with
  | nil => simp at h
  | cons b args ih =>
    rcases List.mem_cons.mp h with rfl | h
    · exact List.sublist_append_left ..
    · exact (ih h).trans (List.sublist_append_right ..)

theorem binders_sublist_bindings {bindings : List (LetBinding Term)} {b : LetBinding Term}
    (h : b ∈ bindings) : (binders b.value).Sublist (bindersBindings bindings) := by
  induction bindings with
  | nil => simp at h
  | cons c bindings ih =>
    rcases List.mem_cons.mp h with rfl | h
    · exact List.sublist_append_left ..
    · exact (ih h).trans (List.sublist_append_right ..)

theorem holelessArgs_iff {args : List Term} : HolelessArgs args ↔ ∀ a ∈ args, Holeless a := by
  induction args with
  | nil => simp
  | cons a args ih => simp [ih]

theorem holelessBindings_iff {bindings : List (LetBinding Term)} :
    HolelessBindings bindings ↔ ∀ b ∈ bindings, Holeless b.value := by
  induction bindings with
  | nil => simp
  | cons b bindings ih => simp [ih]

theorem unshadowedArgs_iff {scope : List Nat} {args : List Term} :
    UnshadowedArgs scope args ↔ ∀ a ∈ args, Unshadowed scope a := by
  induction args with
  | nil => simp
  | cons a args ih => simp [ih]

theorem unshadowedBindings_iff {scope : List Nat} {bindings : List (LetBinding Term)} :
    UnshadowedBindings scope bindings ↔ ∀ b ∈ bindings, Unshadowed scope b.value := by
  induction bindings with
  | nil => simp
  | cons b bindings ih => simp [ih]

/-- What is left of pairwise distinct numbers in a part of the term. -/
theorem nodup_part {scope l m : List Nat} (h : (scope ++ l).Nodup) (hm : m.Sublist l) :
    (scope ++ m).Nodup :=
  h.sublist (hm.append_left scope)

/-- Under one binder. -/
theorem nodup_under {scope l m : List Nat} {x : Nat} (h : (scope ++ l).Nodup)
    (hm : (x :: m).Sublist l) : x ∉ scope ∧ (scope ++ [x] ++ m).Nodup := by
  have hpart := nodup_part h hm
  refine ⟨fun hx => ?_, by simpa using hpart⟩
  exact (List.nodup_append.mp hpart).2.2 x hx x (by simp) rfl

/-- Binders with pairwise distinct numbers shadow nothing. -/
theorem unshadowed_of_nodup {scope : List Nat} {t : Term} (h : (scope ++ binders t).Nodup) :
    Unshadowed scope t := by
  induction t generalizing scope with
  | Var | Ref | GpuRef | Qnt | Qua | Efq | Rfl | Hole => trivial
  | Typ g ih => exact ih h
  | Min a b iha ihb =>
    exact ⟨iha (nodup_part h (List.sublist_append_left ..)),
      ihb (nodup_part h (List.sublist_append_right ..))⟩
  | All q n x d b ihd ihb =>
    obtain ⟨hx, hb⟩ := nodup_under h (List.sublist_append_right ..)
    exact ⟨ihd (nodup_part h (List.sublist_append_left ..)), hx, ihb hb⟩
  | Lam n x b ihb =>
    obtain ⟨hx, hb⟩ := nodup_under h (List.Sublist.refl _)
    exact ⟨hx, ihb hb⟩
  | App f x ihf ihx =>
    exact ⟨ihf (nodup_part h (List.sublist_append_left ..)),
      ihx (nodup_part h (List.sublist_append_right ..))⟩
  | Adt n args ex ih =>
    exact unshadowedArgs_iff.mpr fun a ha => ih a ha (nodup_part h (binders_sublist_args ha))
  | Ctr n args ih =>
    exact unshadowedArgs_iff.mpr fun a ha => ih a ha (nodup_part h (binders_sublist_args ha))
  | Mat c a f iha ihf =>
    exact ⟨iha (nodup_part h (List.sublist_append_left ..)),
      ihf (nodup_part h (List.sublist_append_right ..))⟩
  | Eql l r t ihl ihr iht =>
    have hrest := nodup_part h (List.sublist_append_right ..)
    exact ⟨ihl (nodup_part h (List.sublist_append_left ..)),
      ihr (nodup_part hrest (List.sublist_append_left ..)),
      iht (nodup_part hrest (List.sublist_append_right ..))⟩
  | Rwt e m b ihe ihm ihb =>
    have hrest := nodup_part h (List.sublist_append_right ..)
    exact ⟨ihe (nodup_part h (List.sublist_append_left ..)),
      ihm (nodup_part hrest (List.sublist_append_left ..)),
      ihb (nodup_part hrest (List.sublist_append_right ..))⟩
  | Ann v t ihv iht =>
    exact ⟨ihv (nodup_part h (List.sublist_append_left ..)),
      iht (nodup_part h (List.sublist_append_right ..))⟩
  | Let bs t ihs iht =>
    have hvalues := nodup_part h (List.sublist_append_left ..)
    have hrest := nodup_part h (List.sublist_append_right ..)
    refine ⟨unshadowedBindings_iff.mpr fun b hb => ihs b hb
      (nodup_part hvalues (binders_sublist_bindings hb)), ?_, iht (by simpa using hrest)⟩
    exact nodup_part hrest (List.sublist_append_left ..)

/-! ## 3. One part of a comparison -/

namespace Shape

/-- **What a part of the comparison does** with the pairs `pairs`: it answers `true` exactly if
`P` holds, and then leaves the pairs `pairs'` and has noted the names of `R`. -/
structure Compares (pairs : List (Nat × Nat)) (act : Comparison) (pairs' : List (Nat × Nat))
    (P : Prop) (R : List String) : Prop where
  result : ∀ noted, (act ⟨pairs, noted⟩).1 = true ↔ P
  bindings : ∀ noted, P → (act ⟨pairs, noted⟩).2.bindings = pairs'
  references : ∀ noted, P → ∀ name,
    name ∈ (act ⟨pairs, noted⟩).2.references ↔ name ∈ noted ∨ name ∈ R

namespace Compares

variable {pairs middle pairs' : List (Nat × Nat)} {f g : Comparison} {P Q : Prop}
  {R S : List String}

theorem congr (h : Compares pairs f pairs' P R) (hP : P ↔ Q) (hR : P → ∀ n, n ∈ R ↔ n ∈ S) :
    Compares pairs f pairs' Q S where
  result noted := (h.result noted).trans hP
  bindings noted hQ := h.bindings noted (hP.mpr hQ)
  references noted hQ name := by
    rw [h.references noted (hP.mpr hQ), hR (hP.mpr hQ)]

theorem holds (b : Bool) : Compares pairs (holds b) pairs (b = true) [] where
  result noted := Iff.rfl
  bindings noted h := rfl
  references noted h name := by simp [Shape.holds]

/-- One comparison and then another, which may rely on the first. -/
theorem both (hf : Compares pairs f middle P R) (hg : P → Compares middle g pairs' Q S) :
    Compares pairs (both f g) pairs' (P ∧ Q) (R ++ S) := by
  have hstep : ∀ noted, P → Shape.both f g ⟨pairs, noted⟩ =
      g ⟨middle, (f ⟨pairs, noted⟩).2.references⟩ := by
    intro noted hP
    have hresult := (hf.result noted).mpr hP
    have hbindings := hf.bindings noted hP
    rw [Shape.both]
    cases hcall : f ⟨pairs, noted⟩ with
    | mk result after =>
      rw [hcall] at hresult hbindings
      simp only at hresult hbindings
      subst hresult hbindings
      rfl
  constructor
  · intro noted
    by_cases hP : P
    · rw [hstep noted hP, (hg hP).result]
      exact (and_iff_right hP).symm
    · have hresult : (f ⟨pairs, noted⟩).1 = false := by
        simpa using mt (hf.result noted).mp hP
      rw [Shape.both]
      cases hcall : f ⟨pairs, noted⟩ with
      | mk result after =>
        rw [hcall] at hresult
        simp only at hresult
        subst hresult
        simp [hP]
  · rintro noted ⟨hP, hQ⟩
    rw [hstep noted hP]
    exact (hg hP).bindings _ hQ
  · rintro noted ⟨hP, hQ⟩ name
    rw [hstep noted hP, (hg hP).references _ hQ, hf.references noted hP, List.mem_append, or_assoc]

theorem refer (name : String) (h : Compares pairs f pairs' P R) :
    Compares pairs (refer name f) pairs' P (name :: R) where
  result noted := h.result _
  bindings noted hP := h.bindings _ hP
  references noted hP n := by
    have hnoted : n ∈ (if name ∈ noted then noted else noted.orderedInsert (· ≤ ·) name) ↔
        n = name ∨ n ∈ noted := by
      split
      · rename_i hmem
        exact ⟨.inr, fun h => h.elim (fun h => h ▸ hmem) id⟩
      · exact List.mem_orderedInsert (· ≤ ·)
    refine (h.references _ hP n).trans ?_
    rw [hnoted, List.mem_cons]
    tauto

theorem underBinder (a e : Nat) (h : Compares (pairs ++ [(a, e)]) f (pairs ++ [(a, e)]) P R) :
    Compares pairs (underBinder a e f) pairs P R where
  result noted := h.result noted
  bindings noted hP := by
    have hbindings := h.bindings noted hP
    simp [Shape.underBinder, hbindings]
  references noted hP := h.references noted hP

theorem underBinders (new : List (Nat × Nat)) (h : Compares (pairs ++ new) f (pairs ++ new) P R) :
    Compares pairs (underBinders new f) pairs P R where
  result noted := h.result noted
  bindings noted hP := by
    have hbindings := h.bindings noted hP
    simp [Shape.underBinders, hbindings]
  references noted hP := h.references noted hP

end Compares

theorem compares_sameReference (pairs : List (Nat × Nat)) (a e : String) :
    Compares pairs (sameReference a e) pairs (a = e) [e] :=
  ((Compares.holds (a == e)).refer e).congr (by simp) fun _ _ => Iff.rfl

/-- The pair that is found for a number of the actual side stands where its last binder does. -/
theorem find_position (pairs : List (Nat × Nat)) (a : Nat) :
    pairs.reverse.find? (·.1 == a) =
      (position (pairs.map Prod.fst) a).bind fun j => pairs.reverse[j]? := by
  rw [List.find?_eq_bind_findIdx?_getElem?, position, ← List.map_reverse, List.findIdx?_map]
  rfl

theorem position_eq_some {scope : List Nat} (hnodup : scope.Nodup) {id j : Nat} :
    position scope id = some j ↔ scope.reverse[j]? = some id := by
  have hrev : scope.reverse.Nodup := List.nodup_reverse.mpr hnodup
  rw [position, List.findIdx?_eq_some_iff_getElem]
  constructor
  · rintro ⟨hlt, heq, -⟩
    rw [List.getElem?_eq_getElem hlt]
    exact congrArg some (by simpa using heq)
  · intro h
    obtain ⟨hlt, heq⟩ := List.getElem?_eq_some_iff.mp h
    refine ⟨hlt, by simpa using heq, fun i hi hid => ?_⟩
    have hsame : i = j := (List.Nodup.getElem_inj_iff hrev).mp (by
      rw [heq]
      exact eq_of_beq hid)
    omega

/-- Two variables. -/
theorem compares_sameVariable {σ : Nat → Nat} (hσ : σ.Injective) {pairs : List (Nat × Nat)}
    {s s' : Scope} (hs : Indexed σ (pairs.map Prod.fst) s) (hs' : Indexed σ (pairs.map Prod.snd) s')
    (hnodup : (pairs.map Prod.snd).Nodup) (a e : Nat) :
    Compares pairs (sameVariable a e) pairs
      (a ∈ pairs.map Prod.fst ∧ unmark (s a).toNameless = unmark (s' e).toNameless) [] where
  result noted := by
    simp only [sameVariable, find_position]
    rcases hs a with ⟨i, hi, hpos⟩ | ⟨hi, hpos⟩
    · have hmem : a ∈ pairs.map Prod.fst := not_not.mp fun hno => by
        simp [position_eq_none.mpr hno] at hpos
      have hexpected : position (pairs.map Prod.snd) e = some (σ i) ↔ s' e = .bound i := by
        rcases hs' e with ⟨j, hj, hpos'⟩ | ⟨hj, hpos'⟩
        · simp [hj, hpos', hσ.eq_iff]
        · simp [hj, hpos']
      have hunmark : unmark (s a).toNameless = unmark (s' e).toNameless ↔ s' e = .bound i := by
        rw [hi]
        rcases hs' e with ⟨j, hj, -⟩ | ⟨hj, -⟩ <;> simp [hj, Slot.toNameless, eq_comm]
      rw [hunmark, ← hexpected, position_eq_some hnodup, ← List.map_reverse, List.getElem?_map,
        hpos, Option.bind_some]
      cases hpair : pairs.reverse[σ i]? with
      | none => simp
      | some pair => simp [hmem]
    · have hno : a ∉ pairs.map Prod.fst := position_eq_none.mp hpos
      rw [hpos]
      simp [hno]
  bindings noted _ := rfl
  references noted _ name := by simp [sameVariable]

/-- What the comparison of two terms does. -/
def Exact (pairs : List (Nat × Nat)) (s s' : Scope) (a e : Term) : Prop :=
  Compares pairs (term a e) pairs
    (ClosedIn (pairs.map Prod.fst) a ∧ unmark (strip s a) = unmark (strip s' e) ∧ Holeless e)
    (mentions e)

theorem compares_eachTerm {pairs : List (Nat × Nat)} {s s' : Scope} {args args' : List Term}
    (hlen : args.length = args'.length)
    (h : ∀ a ∈ args, ∀ e ∈ args', Exact pairs s s' a e) :
    Compares pairs (eachTerm args args') pairs
      ((∀ a ∈ args, ClosedIn (pairs.map Prod.fst) a) ∧
        args.map (fun a => unmark (strip s a)) = args'.map (fun e => unmark (strip s' e)) ∧
        ∀ e ∈ args', Holeless e)
      (mentionsArgs args') := by
  induction args generalizing args' with
  | nil =>
    obtain rfl := List.eq_nil_of_length_eq_zero hlen.symm
    exact (Compares.holds true).congr (by simp) fun _ _ => by simp
  | cons a args ih =>
    cases args' with
    | nil => simp at hlen
    | cons e args' =>
      have hrest := ih (by simpa using hlen) fun b hb c hc =>
        h b (List.mem_cons_of_mem _ hb) c (List.mem_cons_of_mem _ hc)
      refine ((h a (by simp) e (by simp)).both fun _ => hrest).congr ?_ fun _ _ => by simp
      simp only [List.forall_mem_cons, List.map_cons, List.cons.injEq]
      tauto

theorem compares_eachBinding {pairs : List (Nat × Nat)} {s s' : Scope}
    {bs bs' : List (LetBinding Term)} (hlen : bs.length = bs'.length)
    (h : ∀ b ∈ bs, ∀ b' ∈ bs', Exact pairs s s' b.value b'.value) :
    Compares pairs (eachBinding bs bs') pairs
      ((∀ b ∈ bs, ClosedIn (pairs.map Prod.fst) b.value) ∧
        (bs.map (·.quant) = bs'.map (·.quant) ∧
          bs.map (fun b => unmark (strip s b.value)) =
            bs'.map fun b => unmark (strip s' b.value)) ∧
        ∀ b ∈ bs', Holeless b.value)
      (mentionsBindings bs') := by
  induction bs generalizing bs' with
  | nil =>
    obtain rfl := List.eq_nil_of_length_eq_zero hlen.symm
    exact (Compares.holds true).congr (by simp) fun _ _ => by simp
  | cons b bs ih =>
    cases bs' with
    | nil => simp at hlen
    | cons b' bs' =>
      have hrest := ih (by simpa using hlen) fun c hc c' hc' =>
        h c (List.mem_cons_of_mem _ hc) c' (List.mem_cons_of_mem _ hc')
      refine ((Compares.holds (b.quant == b'.quant)).both fun _ =>
        (h b (by simp) b' (by simp)).both fun _ => hrest).congr ?_ fun _ _ => by simp
      simp only [List.forall_mem_cons, List.map_cons, List.cons.injEq, beq_iff_eq]
      tauto

theorem length_eq_of_map {α β τ : Type*} {f : α → τ} {g : β → τ} {xs : List α} {ys : List β}
    (h : xs.map f = ys.map g) : xs.length = ys.length := by
  simpa using congrArg List.length h

/-- Terms of two kinds are not equal. -/
theorem exact_of_letter_ne {σ : Nat → Nat} {pairs : List (Nat × Nat)} {s s' : Scope}
    (hs : Indexed σ (pairs.map Prod.fst) s) (hs' : Indexed σ (pairs.map Prod.snd) s') {a e : Term}
    (hletter : a.letter ≠ e.letter) : Exact pairs s s' a e := by
  have hunmark : ∀ n : Nameless, (unmark n).letter = n.letter := fun n => by cases n <;> rfl
  unfold Exact
  rw [term_of_letter_ne hletter]
  refine (Compares.holds false).congr (iff_of_false (by simp) ?_) (by simp)
  rintro ⟨-, heq, -⟩
  apply hletter
  rw [← letter_strip hs.plain a, ← hunmark, heq, hunmark, letter_strip hs'.plain e]

/-- What the comparison of two terms does under a binder of each side. -/
def ExactUnder (pairs : List (Nat × Nat)) (s s' : Scope) (x y : Nat) (b b' : Term) : Prop :=
  Compares pairs (underBinder x y (term b b')) pairs
    (ClosedIn (pairs.map Prod.fst ++ [x]) b ∧
      unmark (strip (s.push x) b) = unmark (strip (s'.push y) b') ∧ Holeless b')
    (mentions b')

/-- What it does under the binders of two `let`s. -/
def ExactLet (pairs : List (Nat × Nat)) (s s' : Scope) (bs bs' : List (LetBinding Term))
    (t t' : Term) : Prop :=
  Compares pairs (underBinders ((bs.map (·.id)).zip (bs'.map (·.id))) (term t t')) pairs
    (ClosedIn (pairs.map Prod.fst ++ bs.map (·.id)) t ∧
      unmark (strip (s.pushAll (bs.map (·.id))) t) =
        unmark (strip (s'.pushAll (bs'.map (·.id))) t') ∧ Holeless t')
    (mentions t')

/-- Under one more binder of each side. -/
theorem exact_under {σ : Nat → Nat} {pairs : List (Nat × Nat)} {s s' : Scope} {b b' : Term}
    (x y : Nat)
    (h : ∀ {pairs : List (Nat × Nat)} {s s' : Scope},
      Indexed (under σ 1) (pairs.map Prod.fst) s → Indexed (under σ 1) (pairs.map Prod.snd) s' →
      (pairs.map Prod.snd).Nodup → Unshadowed (pairs.map Prod.snd) b' → Exact pairs s s' b b')
    (hs : Indexed σ (pairs.map Prod.fst) s) (hs' : Indexed σ (pairs.map Prod.snd) s')
    (hnodup : (pairs.map Prod.snd).Nodup) (hy : y ∉ pairs.map Prod.snd)
    (hb : Unshadowed (pairs.map Prod.snd ++ [y]) b') : ExactUnder pairs s s' x y b b' := by
  have hfst : (pairs ++ [(x, y)]).map Prod.fst = pairs.map Prod.fst ++ [x] := by simp
  have hsnd : (pairs ++ [(x, y)]).map Prod.snd = pairs.map Prod.snd ++ [y] := by simp
  have hnew : (pairs.map Prod.snd ++ [y]).Nodup := by
    rw [List.nodup_append]
    refine ⟨hnodup, by simp, fun c hc d hd heq => hy ?_⟩
    rw [← List.mem_singleton.mp hd, ← heq]
    exact hc
  unfold ExactUnder
  rw [← hfst]
  exact Compares.underBinder x y
    (h (hfst ▸ hs.push x) (hsnd ▸ hs'.push y) (hsnd ▸ hnew) (hsnd ▸ hb))

/-- Under the binders of two `let`s. -/
theorem exact_let {σ : Nat → Nat} {pairs : List (Nat × Nat)} {s s' : Scope}
    {bs bs' : List (LetBinding Term)} {t t' : Term}
    (h : ∀ {pairs : List (Nat × Nat)} {s s' : Scope},
      Indexed (under σ bs.length) (pairs.map Prod.fst) s →
      Indexed (under σ bs.length) (pairs.map Prod.snd) s' →
      (pairs.map Prod.snd).Nodup → Unshadowed (pairs.map Prod.snd) t' → Exact pairs s s' t t')
    (hs : Indexed σ (pairs.map Prod.fst) s) (hs' : Indexed σ (pairs.map Prod.snd) s')
    (hbs : (bs.map (·.id)).Nodup) (hbs' : (pairs.map Prod.snd ++ bs'.map (·.id)).Nodup)
    (ht : Unshadowed (pairs.map Prod.snd ++ bs'.map (·.id)) t') (hlen : bs.length = bs'.length) :
    ExactLet pairs s s' bs bs' t t' := by
  have hids : (bs.map (·.id)).length = (bs'.map (·.id)).length := by simpa using hlen
  have hcount : (bs.map (·.id)).length = bs.length := List.length_map _
  have hfst : (pairs ++ (bs.map (·.id)).zip (bs'.map (·.id))).map Prod.fst =
      pairs.map Prod.fst ++ bs.map (·.id) := by
    rw [List.map_append, List.map_fst_zip hids.le]
  have hsnd : (pairs ++ (bs.map (·.id)).zip (bs'.map (·.id))).map Prod.snd =
      pairs.map Prod.snd ++ bs'.map (·.id) := by
    rw [List.map_append, List.map_snd_zip hids.ge]
  have hexact := h (hcount ▸ hfst ▸ hs.pushAll hbs)
    (hcount ▸ hsnd ▸ hids ▸ hs'.pushAll (List.nodup_append.mp hbs').2.1) (hsnd ▸ hbs')
    (hsnd ▸ ht)
  unfold ExactLet
  rw [← hfst]
  exact Compares.underBinders _ hexact

/-! Each kind of term is compared by its parts. -/

namespace Exact

variable {pairs : List (Nat × Nat)} {s s' : Scope}

theorem typ {g g' : Term} (h : Exact pairs s s' g g') : Exact pairs s s' (.Typ g) (.Typ g') :=
  h.congr (by simp [closedIn_typ, strip]) fun _ _ => by simp

theorem min {a b a' b' : Term} (ha : Exact pairs s s' a a') (hb : Exact pairs s s' b b') :
    Exact pairs s s' (.Min a b) (.Min a' b') := by
  refine (ha.both fun _ => hb).congr ?_ fun _ _ => by simp
  simp only [closedIn_min, strip, unmark, Nameless.Min.injEq, Holeless]
  tauto

theorem all (q q' : Quant) (n n' : String) {x y : Nat} {d b d' b' : Term}
    (hd : Exact pairs s s' d d') (hb : ExactUnder pairs s s' x y b b') :
    Exact pairs s s' (.All q n x d b) (.All q' n' y d' b') := by
  refine ((Compares.holds (q == q')).both fun _ => hd.both fun _ => hb).congr ?_
    fun _ _ => by simp
  simp only [closedIn_all, strip, unmark, Nameless.All.injEq, Holeless, beq_iff_eq]
  tauto

theorem lam (n n' : String) {x y : Nat} {b b' : Term} (hb : ExactUnder pairs s s' x y b b') :
    Exact pairs s s' (.Lam n x b) (.Lam n' y b') :=
  Compares.congr hb (by simp [closedIn_lam, strip]) fun _ _ => by simp

theorem app {f x f' x' : Term} (hf : Exact pairs s s' f f') (hx : Exact pairs s s' x x') :
    Exact pairs s s' (.App f x) (.App f' x') := by
  refine (hf.both fun _ => hx).congr ?_ fun _ _ => by simp
  simp only [closedIn_app, strip, unmark, Nameless.App.injEq, Holeless]
  tauto

theorem ann {v t v' t' : Term} (hv : Exact pairs s s' v v') (ht : Exact pairs s s' t t') :
    Exact pairs s s' (.Ann v t) (.Ann v' t') := by
  refine (hv.both fun _ => ht).congr ?_ fun _ _ => by simp
  simp only [closedIn_ann, strip, unmark, Nameless.Ann.injEq, Holeless]
  tauto

theorem adt (n n' : String) (ex ex' : List String) {args args' : List Term}
    (h : ∀ a ∈ args, ∀ e ∈ args', Exact pairs s s' a e) :
    Exact pairs s s' (.Adt n args ex) (.Adt n' args' ex') := by
  refine (((Compares.holds (n == n')).both fun _ => (Compares.holds (ex == ex')).both fun _ =>
    (Compares.holds (args.length == args'.length)).both fun hlen =>
      compares_eachTerm (by simpa using hlen) h).refer n').congr ?_ fun _ _ => by simp
  simp only [closedIn_adt, strip, unmark, Nameless.Adt.injEq, Holeless, beq_iff_eq,
    stripArgs_eq, unmarkArgs_eq, holelessArgs_iff, List.map_map, Function.comp_def]
  have hlen : args.map (fun b => unmark (strip s b)) =
      args'.map (fun c => unmark (strip s' c)) → args.length = args'.length :=
    length_eq_of_map
  tauto

theorem ctr (n n' : String) {args args' : List Term}
    (h : ∀ a ∈ args, ∀ e ∈ args', Exact pairs s s' a e) :
    Exact pairs s s' (.Ctr n args) (.Ctr n' args') := by
  refine ((Compares.holds (n == n')).both fun _ =>
    (Compares.holds (args.length == args'.length)).both fun hlen =>
      compares_eachTerm (by simpa using hlen) h).congr ?_ fun _ _ => by simp
  simp only [closedIn_ctr, strip, unmark, Nameless.Ctr.injEq, Holeless, beq_iff_eq,
    stripArgs_eq, unmarkArgs_eq, holelessArgs_iff, List.map_map, Function.comp_def]
  have hlen : args.map (fun b => unmark (strip s b)) =
      args'.map (fun c => unmark (strip s' c)) → args.length = args'.length :=
    length_eq_of_map
  tauto

theorem mat (c c' : String) {a f a' f' : Term} (ha : Exact pairs s s' a a')
    (hf : Exact pairs s s' f f') : Exact pairs s s' (.Mat c a f) (.Mat c' a' f') := by
  refine ((Compares.holds (c == c')).both fun _ => ha.both fun _ => hf).congr ?_
    fun _ _ => by simp
  simp only [closedIn_mat, strip, unmark, Nameless.Mat.injEq, Holeless, beq_iff_eq]
  tauto

theorem eql {l r t l' r' t' : Term} (hl : Exact pairs s s' l l') (hr : Exact pairs s s' r r')
    (ht : Exact pairs s s' t t') : Exact pairs s s' (.Eql l r t) (.Eql l' r' t') := by
  refine (hl.both fun _ => hr.both fun _ => ht).congr ?_ fun _ _ => by simp
  simp only [closedIn_eql, strip, unmark, Nameless.Eql.injEq, Holeless]
  tauto

theorem rwt {e m b e' m' b' : Term} (he : Exact pairs s s' e e') (hm : Exact pairs s s' m m')
    (hb : Exact pairs s s' b b') : Exact pairs s s' (.Rwt e m b) (.Rwt e' m' b') := by
  refine (he.both fun _ => hm.both fun _ => hb).congr ?_ fun _ _ => by simp
  simp only [closedIn_rwt, strip, unmark, Nameless.Rwt.injEq, Holeless]
  tauto

theorem letIn {bs bs' : List (LetBinding Term)} {t t' : Term}
    (hvalues : ∀ b ∈ bs, ∀ c ∈ bs', Exact pairs s s' b.value c.value)
    (hbody : bs.length = bs'.length → ExactLet pairs s s' bs bs' t t') :
    Exact pairs s s' (.Let bs t) (.Let bs' t') := by
  refine ((Compares.holds (bs.length == bs'.length)).both fun hlen =>
    (compares_eachBinding (by simpa using hlen) hvalues).both fun _ =>
      hbody (by simpa using hlen)).congr ?_ fun _ _ => by simp
  simp only [closedIn_let, strip, unmark, Nameless.Let.injEq, Holeless, beq_iff_eq,
    stripBindings_eq, unmarkArgs_eq, holelessBindings_iff, List.map_map, Function.comp_def]
  have hlen : bs.map (·.quant) = bs'.map (·.quant) → bs.length = bs'.length :=
    length_eq_of_map
  tauto

/-- Two references, with the mark of a GPU reference or without. -/
theorem reference {a e : Term} {n n' : String} (ha : ClosedIn (pairs.map Prod.fst) a)
    (hterm : term a e = sameReference n n') (hstrip : unmark (strip s a) = .Ref n)
    (hstrip' : unmark (strip s' e) = .Ref n') (hholeless : Holeless e)
    (hmentions : mentions e = [n']) : Exact pairs s s' a e := by
  unfold Exact
  rw [hterm, hstrip, hstrip', hmentions]
  exact (compares_sameReference pairs n n').congr (by simp [ha, hholeless]) fun _ _ => Iff.rfl

/-- Two terms without parts, which a test compares. -/
theorem leaf {a e : Term} {b : Bool} (hterm : term a e = holds b)
    (ha : ClosedIn (pairs.map Prod.fst) a) (hholeless : Holeless e) (hmentions : mentions e = [])
    (hstrip : b = true ↔ unmark (strip s a) = unmark (strip s' e)) : Exact pairs s s' a e := by
  unfold Exact
  rw [hterm, hmentions]
  exact (Compares.holds b).congr (by simp [ha, hholeless, hstrip]) fun _ _ => Iff.rfl

end Exact

/-- **The comparison of two terms** answers `true` exactly for terms that are closed and equal up
to binders and marks, leaves the pairs in scope as they were, and notes every name of the expected
side. -/
theorem exact_term {σ : Nat → Nat} (hσ : σ.Injective) {pairs : List (Nat × Nat)} {s s' : Scope}
    (hs : Indexed σ (pairs.map Prod.fst) s) (hs' : Indexed σ (pairs.map Prod.snd) s')
    (hnodup : (pairs.map Prod.snd).Nodup) {a e : Term} (ha : LetsApart a)
    (he : Unshadowed (pairs.map Prod.snd) e) : Exact pairs s s' a e := by
  induction a, e using pairInduction generalizing σ pairs s s' with
  | clash a e hletter => exact exact_of_letter_ne hs hs' hletter
  | Var n x n' y =>
    exact (compares_sameVariable hσ hs hs' hnodup x y).congr (by simp [closedIn_var, strip])
      fun _ _ => by simp
  | Ref n n' | refGpu n n' | gpuRef n n' | GpuRef n n' =>
    exact .reference (by rintro _ ⟨⟩) rfl rfl rfl trivial rfl
  | Typ g g' ih => exact (ih hσ hs hs' hnodup ha he).typ
  | Qnt | Efq | Rfl => exact .leaf rfl (by rintro _ ⟨⟩) trivial rfl (by simp [strip])
  | Qua q q' => exact .leaf rfl (by rintro _ ⟨⟩) trivial rfl (by simp [strip])
  | Hole n n' => exact (Compares.holds false).congr (by simp) fun h => by simp at h
  | Min a b a' b' iha ihb =>
    exact (iha hσ hs hs' hnodup ha.1 he.1).min (ihb hσ hs hs' hnodup ha.2 he.2)
  | All q n x d b q' n' y d' b' ihd ihb =>
    have hb := exact_under x y (fun hs hs' hnodup hb =>
      ihb (under_injective hσ 1) hs hs' hnodup ha.2 hb) hs hs' hnodup he.2.1 he.2.2
    exact .all q q' n n' (ihd hσ hs hs' hnodup ha.1 he.1) hb
  | Lam n x b n' y b' ihb =>
    have hb := exact_under x y (fun hs hs' hnodup hb =>
      ihb (under_injective hσ 1) hs hs' hnodup ha hb) hs hs' hnodup he.1 he.2
    exact .lam n n' hb
  | App f x f' x' ihf ihx =>
    exact (ihf hσ hs hs' hnodup ha.1 he.1).app (ihx hσ hs hs' hnodup ha.2 he.2)
  | Ann v t v' t' ihv iht =>
    exact (ihv hσ hs hs' hnodup ha.1 he.1).ann (iht hσ hs hs' hnodup ha.2 he.2)
  | Adt n args ex n' args' ex' ih =>
    simp only [LetsApart, letsApartArgs_iff, Unshadowed, unshadowedArgs_iff] at ha he
    exact .adt n n' ex ex' fun b hb c hc => ih b hb c hc hσ hs hs' hnodup (ha b hb) (he c hc)
  | Ctr n args n' args' ih =>
    simp only [LetsApart, letsApartArgs_iff, Unshadowed, unshadowedArgs_iff] at ha he
    exact .ctr n n' fun b hb c hc => ih b hb c hc hσ hs hs' hnodup (ha b hb) (he c hc)
  | Mat c a f c' a' f' iha ihf =>
    exact .mat c c' (iha hσ hs hs' hnodup ha.1 he.1) (ihf hσ hs hs' hnodup ha.2 he.2)
  | Eql l r t l' r' t' ihl ihr iht =>
    exact .eql (ihl hσ hs hs' hnodup ha.1 he.1) (ihr hσ hs hs' hnodup ha.2.1 he.2.1)
      (iht hσ hs hs' hnodup ha.2.2 he.2.2)
  | Rwt ev m b ev' m' b' ihe ihm ihb =>
    exact .rwt (ihe hσ hs hs' hnodup ha.1 he.1) (ihm hσ hs hs' hnodup ha.2.1 he.2.1)
      (ihb hσ hs hs' hnodup ha.2.2 he.2.2)
  | Let bs t bs' t' ihs iht =>
    simp only [LetsApart, letsApartBindings_iff, Unshadowed, unshadowedBindings_iff] at ha he
    refine .letIn (fun b hb c hc => ihs b hb c hc hσ hs hs' hnodup (ha.2.1 b hb) (he.1 c hc)) ?_
    exact exact_let (fun hs hs' hnodup ht =>
      iht (under_injective hσ _) hs hs' hnodup ha.2.2 ht) hs hs' ha.1 he.2.1 he.2.2

end Shape

end TeamyBend.Runtime
