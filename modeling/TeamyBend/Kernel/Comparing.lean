/-
# Comparing two terms

Two traversals of the source compare terms up to the names of their binders: the keys of template
instances and the gate of the host arithmetic.  Both go through two terms built by the same
constructor, with a reference and a GPU reference side by side in one of them.  `Paired` lists
these pairs, and `pairInduction` is the induction on two terms side by side.

Both number the binders of a `let` from the last one on, where the kernel lets the first one with
a number bind it.  The readings agree where no `let` binds a number twice (`LetsApart`), and
`Indexed` goes from the one count of the variables in scope to the other.
-/
import TeamyBend.Kernel.Nameless

namespace TeamyBend.Kernel

/-! ## 1. Terms of one kind -/

/-- A letter for each kind of term, one for the two kinds of references. -/
def Term.letter : Term → Char
  | .Var .. => 'v'
  | .Ref .. => 'r'
  | .GpuRef .. => 'r'
  | .Typ .. => 't'
  | .Qnt => 'q'
  | .Qua .. => 'g'
  | .Min .. => 'm'
  | .All .. => 'f'
  | .Lam .. => 'l'
  | .App .. => 'a'
  | .Adt .. => 'd'
  | .Ctr .. => 'c'
  | .Mat .. => 'b'
  | .Efq => 'e'
  | .Eql .. => '='
  | .Rfl => 'p'
  | .Rwt .. => 'w'
  | .Hole .. => 'h'
  | .Ann .. => 'n'
  | .Let .. => 's'

/-- The letter of a nameless term. -/
def Nameless.letter : Nameless → Char
  | .free .. => 'v'
  | .bound .. => 'v'
  | .Ref .. => 'r'
  | .GpuRef .. => 'r'
  | .Typ .. => 't'
  | .Qnt => 'q'
  | .Qua .. => 'g'
  | .Min .. => 'm'
  | .All .. => 'f'
  | .Lam .. => 'l'
  | .App .. => 'a'
  | .Adt .. => 'd'
  | .Ctr .. => 'c'
  | .Mat .. => 'b'
  | .Efq => 'e'
  | .Eql .. => '='
  | .Rfl => 'p'
  | .Rwt .. => 'w'
  | .Hole .. => 'h'
  | .Ann .. => 'n'
  | .Let .. => 's'

/-- Two terms of one kind. -/
inductive Paired : Term → Term → Prop where
  | Var (name : String) (id : Nat) (name' : String) (id' : Nat) :
      Paired (.Var name id) (.Var name' id')
  | Ref (name name' : String) : Paired (.Ref name) (.Ref name')
  | refGpu (name name' : String) : Paired (.Ref name) (.GpuRef name')
  | gpuRef (name name' : String) : Paired (.GpuRef name) (.Ref name')
  | GpuRef (name name' : String) : Paired (.GpuRef name) (.GpuRef name')
  | Typ (g g' : Term) : Paired (.Typ g) (.Typ g')
  | Qnt : Paired .Qnt .Qnt
  | Qua (q q' : Quant) : Paired (.Qua q) (.Qua q')
  | Min (a b a' b' : Term) : Paired (.Min a b) (.Min a' b')
  | All (q : Quant) (name : String) (id : Nat) (d b : Term) (q' : Quant) (name' : String)
      (id' : Nat) (d' b' : Term) : Paired (.All q name id d b) (.All q' name' id' d' b')
  | Lam (name : String) (id : Nat) (b : Term) (name' : String) (id' : Nat) (b' : Term) :
      Paired (.Lam name id b) (.Lam name' id' b')
  | App (f x f' x' : Term) : Paired (.App f x) (.App f' x')
  | Adt (name : String) (args : List Term) (ex : List String) (name' : String)
      (args' : List Term) (ex' : List String) : Paired (.Adt name args ex) (.Adt name' args' ex')
  | Ctr (name : String) (args : List Term) (name' : String) (args' : List Term) :
      Paired (.Ctr name args) (.Ctr name' args')
  | Mat (c : String) (a f : Term) (c' : String) (a' f' : Term) :
      Paired (.Mat c a f) (.Mat c' a' f')
  | Efq : Paired .Efq .Efq
  | Eql (l r t l' r' t' : Term) : Paired (.Eql l r t) (.Eql l' r' t')
  | Rfl : Paired .Rfl .Rfl
  | Rwt (e m b e' m' b' : Term) : Paired (.Rwt e m b) (.Rwt e' m' b')
  | Hole (name name' : String) : Paired (.Hole name) (.Hole name')
  | Ann (v t v' t' : Term) : Paired (.Ann v t) (.Ann v' t')
  | Let (bs : List (LetBinding Term)) (t : Term) (bs' : List (LetBinding Term)) (t' : Term) :
      Paired (.Let bs t) (.Let bs' t')

/-- Two terms of one shape are paired. -/
theorem paired_of_letter {t u : Term} (h : t.letter = u.letter) : Paired t u := by
  cases t <;> cases u <;> first
    | constructor
    | simp [Term.letter] at h

/-- **Induction on two terms side by side**: those of two kinds, and the pairs of one kind with what
holds of their parts. -/
@[elab_as_elim]
theorem pairInduction {motive : Term → Term → Prop}
    (clash : ∀ t u, t.letter ≠ u.letter → motive t u)
    (Var : ∀ name id name' id', motive (.Var name id) (.Var name' id'))
    (Ref : ∀ name name', motive (.Ref name) (.Ref name'))
    (refGpu : ∀ name name', motive (.Ref name) (.GpuRef name'))
    (gpuRef : ∀ name name', motive (.GpuRef name) (.Ref name'))
    (GpuRef : ∀ name name', motive (.GpuRef name) (.GpuRef name'))
    (Typ : ∀ g g', motive g g' → motive (.Typ g) (.Typ g'))
    (Qnt : motive .Qnt .Qnt)
    (Qua : ∀ q q', motive (.Qua q) (.Qua q'))
    (Min : ∀ a b a' b', motive a a' → motive b b' → motive (.Min a b) (.Min a' b'))
    (All : ∀ q name id d b q' name' id' d' b', motive d d' → motive b b' →
      motive (.All q name id d b) (.All q' name' id' d' b'))
    (Lam : ∀ name id b name' id' b', motive b b' → motive (.Lam name id b) (.Lam name' id' b'))
    (App : ∀ f x f' x', motive f f' → motive x x' → motive (.App f x) (.App f' x'))
    (Adt : ∀ name args ex name' args' ex', (∀ a ∈ args, ∀ a' ∈ args', motive a a') →
      motive (.Adt name args ex) (.Adt name' args' ex'))
    (Ctr : ∀ name args name' args', (∀ a ∈ args, ∀ a' ∈ args', motive a a') →
      motive (.Ctr name args) (.Ctr name' args'))
    (Mat : ∀ c a f c' a' f', motive a a' → motive f f' → motive (.Mat c a f) (.Mat c' a' f'))
    (Efq : motive .Efq .Efq)
    (Eql : ∀ l r ty l' r' ty', motive l l' → motive r r' → motive ty ty' →
      motive (.Eql l r ty) (.Eql l' r' ty'))
    (Rfl : motive .Rfl .Rfl)
    (Rwt : ∀ e m b e' m' b', motive e e' → motive m m' → motive b b' →
      motive (.Rwt e m b) (.Rwt e' m' b'))
    (Hole : ∀ name name', motive (.Hole name) (.Hole name'))
    (Ann : ∀ v ty v' ty', motive v v' → motive ty ty' → motive (.Ann v ty) (.Ann v' ty'))
    (Let : ∀ bs body bs' body', (∀ b ∈ bs, ∀ b' ∈ bs', motive b.value b'.value) →
      motive body body' → motive (.Let bs body) (.Let bs' body'))
    (t u : Term) : motive t u := by
  have hpaired : ∀ {t u : Term}, (Paired t u → motive t u) → motive t u := by
    intro t u h
    by_cases hletter : t.letter = u.letter
    · exact h (paired_of_letter hletter)
    · exact clash t u hletter
  induction t generalizing u with
  | Var name id => exact hpaired fun hp => by cases hp; exact Var ..
  | Ref name => exact hpaired fun hp => by cases hp; exacts [Ref .., refGpu ..]
  | GpuRef name => exact hpaired fun hp => by cases hp; exacts [gpuRef .., GpuRef ..]
  | Typ g ih => exact hpaired fun hp => by cases hp; exact Typ _ _ (ih _)
  | Qnt => exact hpaired fun hp => by cases hp; exact Qnt
  | Qua q => exact hpaired fun hp => by cases hp; exact Qua ..
  | Min a b iha ihb => exact hpaired fun hp => by cases hp; exact Min _ _ _ _ (iha _) (ihb _)
  | All q name id d b ihd ihb =>
    exact hpaired fun hp => by cases hp; exact All _ _ _ _ _ _ _ _ _ _ (ihd _) (ihb _)
  | Lam name id b ih => exact hpaired fun hp => by cases hp; exact Lam _ _ _ _ _ _ (ih _)
  | App f x ihf ihx => exact hpaired fun hp => by cases hp; exact App _ _ _ _ (ihf _) (ihx _)
  | Adt name args ex ih =>
    exact hpaired fun hp => by cases hp; exact Adt _ _ _ _ _ _ fun a ha a' _ => ih a ha a'
  | Ctr name args ih =>
    exact hpaired fun hp => by cases hp; exact Ctr _ _ _ _ fun a ha a' _ => ih a ha a'
  | Mat c a f iha ihf => exact hpaired fun hp => by cases hp; exact Mat _ _ _ _ _ _ (iha _) (ihf _)
  | Efq => exact hpaired fun hp => by cases hp; exact Efq
  | Eql l r ty ihl ihr iht =>
    exact hpaired fun hp => by cases hp; exact Eql _ _ _ _ _ _ (ihl _) (ihr _) (iht _)
  | Rfl => exact hpaired fun hp => by cases hp; exact Rfl
  | Rwt e m b ihe ihm ihb =>
    exact hpaired fun hp => by cases hp; exact Rwt _ _ _ _ _ _ (ihe _) (ihm _) (ihb _)
  | Hole name => exact hpaired fun hp => by cases hp; exact Hole ..
  | Ann v ty ihv iht => exact hpaired fun hp => by cases hp; exact Ann _ _ _ _ (ihv _) (iht _)
  | Let bs body ihs ih =>
    exact hpaired fun hp => by
      cases hp
      exact Let _ _ _ _ (fun b hb b' _ => ihs b hb b'.value) (ih _)

/-- Forgetting the names keeps the kind. -/
theorem letter_strip {s : Scope} (hs : s.Plain) (t : Term) : (strip s t).letter = t.letter := by
  cases t with
  | Var name id =>
    have hid := hs id
    simp only [strip]
    cases hslot : s id with
    | bound i => rfl
    | term v =>
      rw [hslot] at hid
      obtain ⟨x, rfl⟩ := hid
      rfl
  | _ => rfl

/-! ## 2. Binders of one `let` -/

mutual

/-- No `let` of the term binds one number twice. -/
def LetsApart : Term → Prop
  | .Typ g => LetsApart g
  | .Min a b => LetsApart a ∧ LetsApart b
  | .All _ _ _ domain body => LetsApart domain ∧ LetsApart body
  | .Lam _ _ body => LetsApart body
  | .App f x => LetsApart f ∧ LetsApart x
  | .Adt _ args _ => LetsApartArgs args
  | .Ctr _ args => LetsApartArgs args
  | .Mat _ arm fallback => LetsApart arm ∧ LetsApart fallback
  | .Eql left right ty => LetsApart left ∧ LetsApart right ∧ LetsApart ty
  | .Rwt evidence motive body => LetsApart evidence ∧ LetsApart motive ∧ LetsApart body
  | .Ann value ty => LetsApart value ∧ LetsApart ty
  | .Let bindings body =>
    (bindings.map (·.id)).Nodup ∧ LetsApartBindings bindings ∧ LetsApart body
  | _ => True

/-- `LetsApart` on an argument list. -/
def LetsApartArgs : List Term → Prop
  | [] => True
  | a :: args => LetsApart a ∧ LetsApartArgs args

/-- `LetsApart` on the values of a `let`. -/
def LetsApartBindings : List (LetBinding Term) → Prop
  | [] => True
  | ⟨_, _, _, value⟩ :: bindings => LetsApart value ∧ LetsApartBindings bindings

end

attribute [local simp] LetsApart LetsApartArgs LetsApartBindings

@[simp] theorem letsApartArgs_iff {args : List Term} :
    LetsApartArgs args ↔ ∀ a ∈ args, LetsApart a := by
  induction args with
  | nil => simp
  | cons a args ih => simp [ih]

@[simp] theorem letsApartBindings_iff {bindings : List (LetBinding Term)} :
    LetsApartBindings bindings ↔ ∀ b ∈ bindings, LetsApart b.value := by
  induction bindings with
  | nil => simp
  | cons b bindings ih => simp [ih]

/-- A `let` whose second binder has the number of its first one. -/
def repeatedLet : Term := .Let [⟨.Many, "x", 0, .Qnt⟩, ⟨.Many, "x", 0, .Efq⟩] (.Var "x" 0)

/-- The same with a number for each binder. -/
def distinctLet : Term := .Let [⟨.Many, "x", 0, .Qnt⟩, ⟨.Many, "y", 1, .Efq⟩] (.Var "y" 1)

/-- The kernel takes the first of two binders with one number. -/
theorem nameless_repeatedLet :
    nameless repeatedLet = .Let [.Many, .Many] [.Qnt, .Efq] (.bound 0) := rfl

theorem nameless_distinctLet :
    nameless distinctLet = .Let [.Many, .Many] [.Qnt, .Efq] (.bound 1) := rfl

/-! ## 3. Closed terms -/

/-- Every free variable of the term is bound by the scope. -/
def ClosedIn (scope : List Nat) (t : Term) : Prop := ∀ id, FreeIn id t → id ∈ scope

section ClosedIn

variable {scope : List Nat}

theorem closedIn_leaf {t : Term} (h : ∀ id, ¬FreeIn id t) : True ↔ ClosedIn scope t :=
  iff_of_true trivial fun id hid => absurd hid (h id)

/-- A variable is closed when it is in scope. -/
theorem closedIn_var {name : String} {id : Nat} : ClosedIn scope (.Var name id) ↔ id ∈ scope := by
  simp [ClosedIn]

theorem closedIn_typ {g : Term} : ClosedIn scope (.Typ g) ↔ ClosedIn scope g := by
  constructor
  · exact fun h id hid => h id (.typ hid)
  · intro h id hid
    cases hid with
    | typ hid => exact h id hid

theorem closedIn_min {a b : Term} :
    ClosedIn scope (.Min a b) ↔ ClosedIn scope a ∧ ClosedIn scope b := by
  constructor
  · exact fun h => ⟨fun id hid => h id (.minL hid), fun id hid => h id (.minR hid)⟩
  · rintro ⟨ha, hb⟩ id hid
    cases hid with
    | minL hid => exact ha id hid
    | minR hid => exact hb id hid

/-- The body of a function type is closed under its binder. -/
theorem closedIn_all {q : Quant} {name : String} {x : Nat} {d b : Term} :
    ClosedIn scope (.All q name x d b) ↔ ClosedIn scope d ∧ ClosedIn (scope ++ [x]) b := by
  constructor
  · refine fun h => ⟨fun id hid => h id (.domain hid), fun id hid => ?_⟩
    by_cases hx : id = x
    · simp [hx]
    · simp [h id (.codomain hx hid)]
  · rintro ⟨hd, hb⟩ id hid
    cases hid with
    | domain hid => exact hd id hid
    | codomain hx hid => simpa [hx] using hb id hid

/-- The body of a function is closed under its binder. -/
theorem closedIn_lam {name : String} {x : Nat} {b : Term} :
    ClosedIn scope (.Lam name x b) ↔ ClosedIn (scope ++ [x]) b := by
  constructor
  · intro h id hid
    by_cases hx : id = x
    · simp [hx]
    · simp [h id (.lam hx hid)]
  · rintro hb id hid
    cases hid with
    | lam hx hid => simpa [hx] using hb id hid

theorem closedIn_app {f x : Term} :
    ClosedIn scope (.App f x) ↔ ClosedIn scope f ∧ ClosedIn scope x := by
  constructor
  · exact fun h => ⟨fun id hid => h id (.fn hid), fun id hid => h id (.arg hid)⟩
  · rintro ⟨hf, hx⟩ id hid
    cases hid with
    | fn hid => exact hf id hid
    | arg hid => exact hx id hid

theorem closedIn_adt {name : String} {args : List Term} {ex : List String} :
    ClosedIn scope (.Adt name args ex) ↔ ∀ a ∈ args, ClosedIn scope a := by
  constructor
  · exact fun h a ha id hid => h id (.adt ha hid)
  · rintro h id hid
    cases hid with
    | adt ha hid => exact h _ ha id hid

theorem closedIn_ctr {name : String} {args : List Term} :
    ClosedIn scope (.Ctr name args) ↔ ∀ a ∈ args, ClosedIn scope a := by
  constructor
  · exact fun h a ha id hid => h id (.ctr ha hid)
  · rintro h id hid
    cases hid with
    | ctr ha hid => exact h _ ha id hid

theorem closedIn_mat {c : String} {a f : Term} :
    ClosedIn scope (.Mat c a f) ↔ ClosedIn scope a ∧ ClosedIn scope f := by
  constructor
  · exact fun h => ⟨fun id hid => h id (.arm hid), fun id hid => h id (.fallback hid)⟩
  · rintro ⟨ha, hf⟩ id hid
    cases hid with
    | arm hid => exact ha id hid
    | fallback hid => exact hf id hid

theorem closedIn_eql {l r t : Term} :
    ClosedIn scope (.Eql l r t) ↔ ClosedIn scope l ∧ ClosedIn scope r ∧ ClosedIn scope t := by
  constructor
  · exact fun h => ⟨fun id hid => h id (.left hid), fun id hid => h id (.right hid),
      fun id hid => h id (.ty hid)⟩
  · rintro ⟨hl, hr, ht⟩ id hid
    cases hid with
    | left hid => exact hl id hid
    | right hid => exact hr id hid
    | ty hid => exact ht id hid

theorem closedIn_rwt {e m b : Term} :
    ClosedIn scope (.Rwt e m b) ↔ ClosedIn scope e ∧ ClosedIn scope m ∧ ClosedIn scope b := by
  constructor
  · exact fun h => ⟨fun id hid => h id (.evidence hid), fun id hid => h id (.motive hid),
      fun id hid => h id (.body hid)⟩
  · rintro ⟨he, hm, hb⟩ id hid
    cases hid with
    | evidence hid => exact he id hid
    | motive hid => exact hm id hid
    | body hid => exact hb id hid

theorem closedIn_ann {v t : Term} :
    ClosedIn scope (.Ann v t) ↔ ClosedIn scope v ∧ ClosedIn scope t := by
  constructor
  · exact fun h => ⟨fun id hid => h id (.value hid), fun id hid => h id (.annTy hid)⟩
  · rintro ⟨hv, ht⟩ id hid
    cases hid with
    | value hid => exact hv id hid
    | annTy hid => exact ht id hid

/-- The values of a let are closed outside it and its body under all its binders. -/
theorem closedIn_let {bs : List (LetBinding Term)} {t : Term} :
    ClosedIn scope (.Let bs t) ↔
      (∀ b ∈ bs, ClosedIn scope b.value) ∧ ClosedIn (scope ++ bs.map (·.id)) t := by
  constructor
  · refine fun h => ⟨fun b hb id hid => h id (.letValue hb hid), fun id hid => ?_⟩
    by_cases hmem : id ∈ bs.map (·.id)
    · exact List.mem_append_right _ hmem
    · refine List.mem_append_left _ (h id (.letBody (fun b hb heq => ?_) hid))
      exact hmem (List.mem_map.mpr ⟨b, hb, heq⟩)
  · rintro ⟨hvalues, ht⟩ id hid
    cases hid with
    | letValue hb hid => exact hvalues _ hb id hid
    | letBody hkeep hid =>
      refine (List.mem_append.mp (ht id hid)).resolve_right fun hmem => ?_
      obtain ⟨b, hb, heq⟩ := List.mem_map.mp hmem
      exact hkeep b hb heq

end ClosedIn

/-! ## 4. Positions and scopes -/

/-- How many binders back a list of binders, the innermost last, has a number:
`scope.iter().rev().position(|binder| binder == id)`. -/
def position (scope : List Nat) (id : Nat) : Option Nat := scope.reverse.findIdx? (· == id)

/-- A variable has no position when it is not in scope. -/
theorem position_eq_none {scope : List Nat} {id : Nat} : position scope id = none ↔ id ∉ scope := by
  simp only [position, List.findIdx?_eq_none_iff, List.mem_reverse, beq_eq_false_iff_ne]
  exact ⟨fun h hmem => h id hmem rfl, fun h y hy heq => h (heq ▸ hy)⟩

/-- The innermost binders are looked up first. -/
theorem position_append (scope ids : List Nat) (id : Nat) :
    position (scope ++ ids) id =
      (position ids id).or ((position scope id).map (· + ids.length)) := by
  simp [position, List.findIdx?_append]

/-- A position lies within the scope. -/
theorem position_lt {ids : List Nat} {id j : Nat} (h : position ids id = some j) :
    j < ids.length := by
  have hlt := (List.findIdx?_eq_some_iff_findIdx_eq.mp h).1
  simpa using hlt

/-- The outermost binder has the last position. -/
theorem position_cons (ids : List Nat) (x id : Nat) :
    position (x :: ids) id =
      (position ids id).or (if x = id then some ids.length else none) := by
  rw [← List.singleton_append, position_append]
  by_cases hx : x = id <;> simp [position, hx]

/-- A count of the variables in scope, under `n` more binders of one group. -/
def under (σ : Nat → Nat) (n : Nat) : Nat → Nat := fun i =>
  if i < n then n - 1 - i else σ (i - n) + n

/-- An injective renaming stays so under binders. -/
theorem under_injective {σ : Nat → Nat} (h : σ.Injective) (n : Nat) : (under σ n).Injective := by
  intro i j hij
  simp only [under] at hij
  split at hij <;> split at hij
  · omega
  · omega
  · omega
  · have hsub : i - n = j - n := h (by omega)
    omega

/-- The list of binders of the source and the scope of the nameless term say the same of every
variable, up to the count `σ`. -/
def Indexed (σ : Nat → Nat) (scope : List Nat) (s : Scope) : Prop := ∀ id,
  (∃ i, s id = .bound i ∧ position scope id = some (σ i)) ∨
    (s id = .term (.free id) ∧ position scope id = none)

theorem indexed_nil (σ : Nat → Nat) : Indexed σ [] Scope.free := fun _ => .inr ⟨rfl, rfl⟩

/-- An indexed scope holds variables only. -/
theorem Indexed.plain {σ : Nat → Nat} {scope : List Nat} {s : Scope} (h : Indexed σ scope s) :
    s.Plain := by
  intro id
  rcases h id with ⟨i, hid, -⟩ | ⟨hid, -⟩
  · rw [hid]
    exact trivial
  · rw [hid]
    exact ⟨id, rfl⟩

/-- Under the binders of a `let`, or under one binder. -/
theorem Indexed.pushAll {σ : Nat → Nat} {scope : List Nat} {s : Scope} (h : Indexed σ scope s)
    {ids : List Nat} (hids : ids.Nodup) :
    Indexed (under σ ids.length) (scope ++ ids) (s.pushAll ids) := by
  induction ids with
  | nil =>
    have hσ : under σ ([] : List Nat).length = σ := by
      funext i
      simp [under]
    rw [hσ, List.append_nil]
    exact h
  | cons x ids ih =>
    obtain ⟨hx, hids⟩ := List.nodup_cons.mp hids
    intro y
    have hpos := position_append scope (x :: ids) y
    have hold := position_append scope ids y
    rw [position_cons] at hpos
    by_cases hy : y = x
    · subst hy
      have hnone : position ids y = none := position_eq_none.mpr hx
      refine .inl ⟨0, Scope.push_self _ _, ?_⟩
      simp [hpos, hnone, under]
    · rw [if_neg (Ne.symm hy), Option.or_none] at hpos
      rcases ih hids y with ⟨i, hi, hpi⟩ | ⟨hi, hpi⟩
      · refine .inl ⟨i + 1, ?_, ?_⟩
        · rw [Scope.pushAll, Scope.push_of_ne _ hy, hi]
          rfl
        · rw [hold] at hpi
          cases hj : position ids y with
          | some j =>
            have hlt := position_lt hj
            simp only [hj, Option.some_or, Option.some.injEq] at hpi
            rw [hpos, hj, Option.some_or, hpi]
            simp only [under, List.length_cons] at hpi ⊢
            grind
          | none =>
            rw [hj, Option.none_or] at hpi hpos
            rw [hpos]
            cases hk : position scope y with
            | none => simp [hk] at hpi
            | some k =>
              simp only [hk, Option.map_some, Option.some.injEq, under, List.length_cons]
                at hpi ⊢
              grind
      · refine .inr ⟨?_, ?_⟩
        · rw [Scope.pushAll, Scope.push_of_ne _ hy, hi]
          rfl
        · rw [hpi] at hold
          rw [hpos]
          simpa using hold.symm

/-- A binder is indexed by the next position. -/
theorem Indexed.push {σ : Nat → Nat} {scope : List Nat} {s : Scope} (h : Indexed σ scope s)
    (x : Nat) : Indexed (under σ 1) (scope ++ [x]) (s.push x) := by
  have hx : [x].Nodup := by simp
  exact h.pushAll hx

end TeamyBend.Kernel
