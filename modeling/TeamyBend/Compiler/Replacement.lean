/-
# Replacing identifiers in types

The C generator specializes a polymorphic definition by a map from identifiers to types.
`replace_type` applies the map one identifier after the other, in ascending order, and
`substitute` renames nothing.  Replacing all identifiers at once, without capture, is a reading of
the type instead: `strip` in the scope that sends every mapped identifier to its nameless value
(`Scope.atOnce`).

The two agree exactly where every identifier that a value brings in stays what it is
(`Chased`): no binder above it captures it, and the entries that are still to come lead it back
to itself.
-/
import TeamyBend.Kernel.Nameless

namespace TeamyBend.Compiler

open Kernel

/-! ## 1. The source -/

/-- `BTreeMap::insert`, on the entries. -/
def insertEntry (id : Nat) (value : Term) : List (Nat × Term) → List (Nat × Term)
  | [] => [(id, value)]
  | (j, w) :: rest =>
    if id < j then (id, value) :: (j, w) :: rest
    else if id = j then (id, value) :: rest
    else (j, w) :: insertEntry id value rest

/-- An entry adds its number only. -/
theorem mem_insertEntry {id : Nat} {value : Term} {entries : List (Nat × Term)} {j : Nat}
    (h : j ∈ (insertEntry id value entries).map Prod.fst) :
    j = id ∨ j ∈ entries.map Prod.fst := by
  induction entries with
  | nil => exact .inl (by simpa [insertEntry] using h)
  | cons e rest ih =>
    obtain ⟨i, w⟩ := e
    simp only [insertEntry] at h
    split at h
    · simpa using h
    · split at h
      · rcases List.mem_cons.mp h with rfl | h
        · exact .inl rfl
        · exact .inr (List.mem_cons_of_mem _ h)
      · rcases List.mem_cons.mp h with rfl | h
        · exact .inr (List.mem_cons_self ..)
        · exact (ih h).imp_right (List.mem_cons_of_mem _)

/-- The entries stay in the order of their numbers. -/
theorem sorted_insertEntry (id : Nat) (value : Term) {entries : List (Nat × Term)}
    (h : (entries.map Prod.fst).Pairwise (· < ·)) :
    ((insertEntry id value entries).map Prod.fst).Pairwise (· < ·) := by
  induction entries with
  | nil => simp [insertEntry]
  | cons e rest ih =>
    obtain ⟨i, w⟩ := e
    rw [List.map_cons, List.pairwise_cons] at h
    obtain ⟨hhead, htail⟩ := h
    rw [insertEntry]
    split
    · rename_i hlt
      refine List.pairwise_cons.mpr ⟨fun j hj => ?_, List.pairwise_cons.mpr ⟨hhead, htail⟩⟩
      rcases List.mem_cons.mp hj with rfl | hj
      · exact hlt
      · exact Nat.lt_trans hlt (hhead j hj)
    · split
      · rename_i heq
        subst heq
        exact List.pairwise_cons.mpr ⟨hhead, htail⟩
      · refine List.pairwise_cons.mpr ⟨fun j hj => ?_, ih htail⟩
        rcases mem_insertEntry hj with rfl | hj
        · omega
        · exact hhead j hj

/-- `type Substitutions = BTreeMap<usize, TermRef>`: the entries by ascending identifier. -/
structure Substitutions where
  entries : List (Nat × Term)
  sorted : (entries.map Prod.fst).Pairwise (· < ·)

namespace Substitutions

/-- `Substitutions::new`. -/
def new : Substitutions := ⟨[], .nil⟩

/-- `BTreeMap::insert`. -/
def insert (self : Substitutions) (id : Nat) (value : Term) : Substitutions :=
  ⟨insertEntry id value self.entries, sorted_insertEntry id value self.sorted⟩

/-- `BTreeMap::get`. -/
def get (self : Substitutions) (id : Nat) : Option Term := self.entries.lookup id

/-- `BTreeMap::contains_key`. -/
def containsKey (self : Substitutions) (id : Nat) : Bool := (self.get id).isSome

end Substitutions

/-- One substitution after the other. -/
def replaceAll (entries : List (Nat × Term)) (ty : Term) : Term :=
  entries.foldl (fun ty e => substitute e.1 e.2 ty) ty

/-- `replace_type`. -/
def replaceType (ty : Term) (substitutions : Substitutions) : Term :=
  replaceAll substitutions.entries ty

/-- `specialize_type`, with a bound on its recursion: a binder that is mapped to a function type
over itself sends the source around for ever. -/
def specializeType : Nat → Term → Substitutions → Option Term
  | 0, _, _ => none
  | fuel + 1, .All quant name id domain body, substitutions =>
    match substitutions.get id with
    | some argument => specializeType fuel (substitute id argument body) substitutions
    | none => some (replaceType (.All quant name id domain body) substitutions)
  | _ + 1, ty, substitutions => some (replaceType ty substitutions)

/-! ## 2. One substitution after the other -/

section ReplaceAll

variable (entries : List (Nat × Term))

/-- The entries whose identifiers are not bound. -/
def without (ids : List Nat) (entries : List (Nat × Term)) : List (Nat × Term) :=
  entries.filter (·.1 ∉ ids)

@[simp] theorem without_nil : without [] entries = entries := by simp [without]

theorem without_cons_of_mem {ids : List Nat} {e : Nat × Term} (h : e.1 ∈ ids) :
    without ids (e :: entries) = without ids entries := List.filter_cons_of_neg (by simpa using h)

theorem without_cons_of_not_mem {ids : List Nat} {e : Nat × Term} (h : e.1 ∉ ids) :
    without ids (e :: entries) = e :: without ids entries :=
  List.filter_cons_of_pos (by simpa using h)

/-- Binders are left out one after another. -/
theorem without_append (ids more : List Nat) :
    without (ids ++ more) entries = without ids (without more entries) := by
  simp [without, List.filter_filter]

@[simp] theorem replaceAll_nil (ty : Term) : replaceAll [] ty = ty := rfl

@[simp] theorem replaceAll_cons (e : Nat × Term) (ty : Term) :
    replaceAll (e :: entries) ty = replaceAll entries (substitute e.1 e.2 ty) := rfl

theorem replaceAll_append (more : List (Nat × Term)) (ty : Term) :
    replaceAll (entries ++ more) ty = replaceAll more (replaceAll entries ty) := List.foldl_append

/-- What no substitution changes stays. -/
theorem replaceAll_of_fixed {t : Term}
    (h : ∀ target replacement, substitute target replacement t = t) : replaceAll entries t = t := by
  induction entries with
  | nil => rfl
  | cons e entries ih => rw [replaceAll_cons, h, ih]

@[simp] theorem replaceAll_typ (g : Term) :
    replaceAll entries (.Typ g) = .Typ (replaceAll entries g) := by
  induction entries generalizing g with
  | nil => rfl
  | cons e entries ih => simp [substitute, ih]

@[simp] theorem replaceAll_min (a b : Term) :
    replaceAll entries (.Min a b) = .Min (replaceAll entries a) (replaceAll entries b) := by
  induction entries generalizing a b with
  | nil => rfl
  | cons e entries ih => simp [substitute, ih]

@[simp] theorem replaceAll_app (f x : Term) :
    replaceAll entries (.App f x) = .App (replaceAll entries f) (replaceAll entries x) := by
  induction entries generalizing f x with
  | nil => rfl
  | cons e entries ih => simp [substitute, ih]

@[simp] theorem replaceAll_mat (c : String) (arm fallback : Term) :
    replaceAll entries (.Mat c arm fallback) =
      .Mat c (replaceAll entries arm) (replaceAll entries fallback) := by
  induction entries generalizing arm fallback with
  | nil => rfl
  | cons e entries ih => simp [substitute, ih]

@[simp] theorem replaceAll_eql (l r t : Term) :
    replaceAll entries (.Eql l r t) =
      .Eql (replaceAll entries l) (replaceAll entries r) (replaceAll entries t) := by
  induction entries generalizing l r t with
  | nil => rfl
  | cons e entries ih => simp [substitute, ih]

@[simp] theorem replaceAll_rwt (l r t : Term) :
    replaceAll entries (.Rwt l r t) =
      .Rwt (replaceAll entries l) (replaceAll entries r) (replaceAll entries t) := by
  induction entries generalizing l r t with
  | nil => rfl
  | cons e entries ih => simp [substitute, ih]

@[simp] theorem replaceAll_ann (v t : Term) :
    replaceAll entries (.Ann v t) = .Ann (replaceAll entries v) (replaceAll entries t) := by
  induction entries generalizing v t with
  | nil => rfl
  | cons e entries ih => simp [substitute, ih]

@[simp] theorem replaceAll_adt (name : String) (args : List Term) (excluded : List String) :
    replaceAll entries (.Adt name args excluded) =
      .Adt name (args.map (replaceAll entries)) excluded := by
  induction entries generalizing args with
  | nil => exact congrArg (Term.Adt name · excluded) (List.map_id args).symm
  | cons e entries ih => simp [substitute, ih, Function.comp_def]

@[simp] theorem replaceAll_ctr (name : String) (args : List Term) :
    replaceAll entries (.Ctr name args) = .Ctr name (args.map (replaceAll entries)) := by
  induction entries generalizing args with
  | nil => exact congrArg (Term.Ctr name) (List.map_id args).symm
  | cons e entries ih => simp [substitute, ih, Function.comp_def]

/-- Under a binder its own entry is left out. -/
@[simp] theorem replaceAll_all (q : Quant) (name : String) (id : Nat) (d b : Term) :
    replaceAll entries (.All q name id d b) =
      .All q name id (replaceAll entries d) (replaceAll (without [id] entries) b) := by
  induction entries generalizing d b with
  | nil => rfl
  | cons e entries ih =>
    by_cases h : id = e.1
    · rw [replaceAll_cons, substitute, if_pos h, ih, without_cons_of_mem _ (by simp [h])]
      rfl
    · rw [replaceAll_cons, substitute, if_neg h, ih,
        without_cons_of_not_mem _ (by simp [Ne.symm h])]
      rfl

@[simp] theorem replaceAll_lam (name : String) (id : Nat) (b : Term) :
    replaceAll entries (.Lam name id b) = .Lam name id (replaceAll (without [id] entries) b) := by
  induction entries generalizing b with
  | nil => rfl
  | cons e entries ih =>
    by_cases h : id = e.1
    · rw [replaceAll_cons, substitute, if_pos h, ih, without_cons_of_mem _ (by simp [h])]
    · rw [replaceAll_cons, substitute, if_neg h, ih,
        without_cons_of_not_mem _ (by simp [Ne.symm h])]
      rfl

/-- So are those of the binders of a `let`. -/
@[simp] theorem replaceAll_let (bindings : List (LetBinding Term)) (b : Term) :
    replaceAll entries (.Let bindings b) =
      .Let (bindings.map fun c => { c with value := replaceAll entries c.value })
        (replaceAll (without (bindings.map (·.id)) entries) b) := by
  induction entries generalizing bindings b with
  | nil => simp [replaceAll, without]
  | cons e entries ih =>
    have hids : (bindings.map fun c => { c with value := substitute e.1 e.2 c.value }).map (·.id) =
        bindings.map (·.id) := by simp [Function.comp_def]
    by_cases h : e.1 ∈ bindings.map (·.id)
    · have hany : bindings.any (·.id = e.1) := by simpa using h
      rw [replaceAll_cons, substitute, if_pos hany, substituteBindings_eq, ih, hids,
        without_cons_of_mem _ h]
      simp [Function.comp_def]
    · have hany : ¬bindings.any (·.id = e.1) := by simpa using h
      rw [replaceAll_cons, substitute, if_neg hany, substituteBindings_eq, ih, hids,
        without_cons_of_not_mem _ h]
      simp [Function.comp_def]

end ReplaceAll

/-! ## 3. Leaves -/

mutual

/-- The variables of a term, each below the binders that stand above it, the innermost first. -/
def leaves : Term → List (List Nat × Nat)
  | .Var _ id => [([], id)]
  | .Ref _ | .GpuRef _ | .Qnt | .Qua _ | .Efq | .Rfl | .Hole _ => []
  | .Typ g => leaves g
  | .Min a b => leaves a ++ leaves b
  | .All _ _ id domain body =>
    leaves domain ++ (leaves body).map fun p => (p.1 ++ [id], p.2)
  | .Lam _ id body => (leaves body).map fun p => (p.1 ++ [id], p.2)
  | .App f x => leaves f ++ leaves x
  | .Adt _ args _ => leavesArgs args
  | .Ctr _ args => leavesArgs args
  | .Mat _ arm fallback => leaves arm ++ leaves fallback
  | .Eql left right ty => leaves left ++ leaves right ++ leaves ty
  | .Rwt evidence motive body => leaves evidence ++ leaves motive ++ leaves body
  | .Ann value ty => leaves value ++ leaves ty
  | .Let bindings body =>
    leavesBindings bindings ++
      (leaves body).map fun p => (p.1 ++ bindings.map (·.id), p.2)

/-- `leaves` on an argument list. -/
def leavesArgs : List Term → List (List Nat × Nat)
  | [] => []
  | a :: args => leaves a ++ leavesArgs args

/-- `leaves` on the values of a `let`. -/
def leavesBindings : List (LetBinding Term) → List (List Nat × Nat)
  | [] => []
  | ⟨_, _, _, value⟩ :: bindings => leaves value ++ leavesBindings bindings

end

@[simp] theorem leavesArgs_eq (args : List Term) : leavesArgs args = args.flatMap leaves := by
  induction args with
  | nil => rfl
  | cons a args ih => rw [leavesArgs, ih, List.flatMap_cons]

@[simp] theorem leavesBindings_eq (bindings : List (LetBinding Term)) :
    leavesBindings bindings = bindings.flatMap fun b => leaves b.value := by
  induction bindings with
  | nil => rfl
  | cons b bindings ih => rw [leavesBindings, ih, List.flatMap_cons]

/-- The first entry for an identifier, with the entries after it. -/
def after : List (Nat × Term) → Nat → Option (Term × List (Nat × Term))
  | [], _ => none
  | (i, value) :: entries, id => if id = i then some (value, entries) else after entries id

/-- What a variable reads as, once it was replaced. -/
def leafReading (s : Scope) (entries : List (Nat × Term)) (id : Nat) : Nameless :=
  match after entries id with
  | none => (s id).toNameless
  | some (value, rest) => strip s (replaceAll rest value)

/-- A variable reads as what it is replaced by. -/
theorem strip_replaceAll_var (s : Scope) (entries : List (Nat × Term)) (name : String) (id : Nat) :
    strip s (replaceAll entries (.Var name id)) = leafReading s entries id := by
  induction entries with
  | nil => rfl
  | cons e entries ih =>
    obtain ⟨i, value⟩ := e
    by_cases h : id = i
    · simp [substitute, leafReading, after, h]
    · simpa [substitute, leafReading, after, h] using ih

/-- Binders are pushed one after another. -/
theorem Scope.pushAll_append (s : Scope) (ids more : List Nat) :
    s.pushAll (ids ++ more) = (s.pushAll more).pushAll ids := by
  induction ids with
  | nil => rfl
  | cons id ids ih => rw [List.cons_append, Scope.pushAll, ih, Scope.pushAll]

/-- **Two readings agree where they agree at the leaves.** -/
theorem strip_replaceAll_iff {s s' : Scope} {entries : List (Nat × Term)} {t : Term} :
    strip s (replaceAll entries t) = strip s' t ↔
      ∀ p ∈ leaves t, leafReading (s.pushAll p.1) (without p.1 entries) p.2 =
        (s'.pushAll p.1 p.2).toNameless := by
  induction t generalizing s s' entries with
  | Var name id => simp [leaves, strip_replaceAll_var, strip, Scope.pushAll]
  | Ref | GpuRef | Qnt | Qua | Efq | Rfl | Hole =>
    rw [replaceAll_of_fixed entries]
    · simp [leaves, strip]
    · exact fun _ _ => rfl
  | Typ g ih => simp [leaves, strip, ih]
  | Min a b iha ihb | App a b iha ihb | Mat _ a b iha ihb | Ann a b iha ihb =>
    simp [leaves, strip, iha, ihb, or_imp, forall_and]
  | Eql l r t ihl ihr iht | Rwt l r t ihl ihr iht =>
    simp [leaves, strip, ihl, ihr, iht, or_imp, forall_and]
  | All q name id d b ihd ihb =>
    simp only [replaceAll_all, strip, leaves, List.mem_append, or_imp, forall_and,
      List.forall_mem_map, Scope.pushAll_append, Scope.pushAll, without_append, ihd, ihb,
      Nameless.All.injEq, true_and]
  | Lam name id b ihb =>
    simp only [replaceAll_lam, strip, leaves, List.forall_mem_map, Scope.pushAll_append,
      Scope.pushAll, without_append, ihb, Nameless.Lam.injEq]
  | Adt _ args _ ih | Ctr _ args ih =>
    have hargs : (args.map fun a => strip s (replaceAll entries a)) = args.map (strip s') ↔
        ∀ a ∈ args, ∀ p ∈ leaves a, leafReading (s.pushAll p.1) (without p.1 entries) p.2 =
          (s'.pushAll p.1 p.2).toNameless := by
      rw [List.map_inj_left]
      exact forall₂_congr fun a ha => ih a ha
    simp only [replaceAll_adt, replaceAll_ctr, strip, stripArgs_eq, List.map_map, leaves,
      leavesArgs_eq, List.mem_flatMap, Nameless.Adt.injEq, Nameless.Ctr.injEq, true_and, and_true,
      Function.comp_def, hargs]
    constructor
    · rintro h p ⟨a, ha, hp⟩
      exact h a ha p hp
    · exact fun h a ha p hp => h p ⟨a, ha, hp⟩
  | Let bs b ihs ihb =>
    have hvalues : (bs.map fun c => strip s (replaceAll entries c.value)) =
        (bs.map fun c => strip s' c.value) ↔
        ∀ c ∈ bs, ∀ p ∈ leaves c.value, leafReading (s.pushAll p.1) (without p.1 entries) p.2 =
          (s'.pushAll p.1 p.2).toNameless := by
      rw [List.map_inj_left]
      exact forall₂_congr fun c hc => ihs c hc
    simp only [replaceAll_let, strip, stripBindings_eq, List.map_map, Function.comp_def, leaves,
      leavesBindings_eq, List.mem_append, or_imp, forall_and, Nameless.Let.injEq, true_and, hvalues,
      ihb, List.mem_flatMap, List.forall_mem_map, Scope.pushAll_append, without_append]
    refine and_congr_left fun _ => ⟨?_, fun h c hc p hp => h p ⟨c, hc, hp⟩⟩
    rintro h p ⟨c, hc, hp⟩
    exact h c hc p hp

/-! ## 4. All at once -/

/-- Where the head of a term goes while it is a mapped variable. -/
def chase : List (Nat × Term) → Term → Term
  | [], ty => ty
  | (i, value) :: entries, .Var name id => chase entries (if id = i then value else .Var name id)
  | _ :: _, ty => ty

/-- The term is that variable. -/
def standsFor (id : Nat) : Term → Bool
  | .Var _ y => y = id
  | _ => false

/-- **The condition.**  Below `bound`, wherever a mapped identifier stands in the type, every
identifier that its value brings in is bound neither there nor above the type, and the later
entries lead it back to itself. -/
def Chased (bound : List Nat) (entries : List (Nat × Term)) (ty : Term) : Prop :=
  ∀ p ∈ leaves ty, ∀ e ∈ after (without p.1 entries) p.2, ∀ q ∈ leaves e.1, q.2 ∉ q.1 →
    q.2 ∉ p.1 ++ bound ∧ standsFor q.2 (chase (without q.1 e.2) (.Var "" q.2))

instance (bound : List Nat) (entries : List (Nat × Term)) (ty : Term) :
    Decidable (Chased bound entries ty) :=
  inferInstanceAs (Decidable (∀ p ∈ leaves ty, ∀ e ∈ after (without p.1 entries) p.2,
    ∀ q ∈ leaves e.1, q.2 ∉ q.1 →
      q.2 ∉ p.1 ++ bound ∧ standsFor q.2 (chase (without q.1 e.2) (.Var "" q.2))))

/-- Below `bound`, every mapped identifier is its value and every other one is itself. -/
def Scope.atOnce (bound : List Nat) (entries : List (Nat × Term)) : Scope := fun id =>
  match entries.lookup id with
  | some value => .term (nameless value)
  | none => Scope.free.pushAll bound id

/-- A replacement reads as a free variable that stands for one. -/
theorem strip_eq_free {s : Scope} {entries : List (Nat × Term)} {t : Term} {z : Nat} :
    strip s (replaceAll entries t) = .free z ↔
      ∃ y, standsFor y (chase entries t) ∧ (s y).toNameless = .free z := by
  induction entries generalizing t with
  | nil => cases t <;> simp [chase, standsFor, strip]
  | cons e entries ih =>
    obtain ⟨i, value⟩ := e
    cases t with
    | Var name id =>
      rw [replaceAll_cons, substitute, ih, chase]
    | Ref | GpuRef | Qnt | Qua | Efq | Rfl | Hole =>
      rw [replaceAll_of_fixed ((i, value) :: entries)]
      · simp [chase, standsFor, strip]
      · exact fun _ _ => rfl
    | _ => simp [chase, standsFor, strip, -replaceAll_cons]

/-- A variable that is not bound stays free. -/
theorem pushAll_free {ids : List Nat} {y z : Nat} :
    (Scope.free.pushAll ids y).toNameless = .free z ↔ y = z ∧ z ∉ ids := by
  induction ids with
  | nil => simp [Scope.pushAll, Scope.free, Slot.toNameless]
  | cons id ids ih =>
    by_cases hy : y = id
    · subst hy
      rw [Scope.pushAll, Scope.push_self]
      simp only [Slot.toNameless, reduceCtorEq, false_iff, List.mem_cons, not_or]
      rintro ⟨rfl, hne, -⟩
      exact hne rfl
    · rw [Scope.pushAll, Scope.push_of_ne _ hy]
      have hshift : (Scope.free.pushAll ids y).shift.toNameless = .free z ↔
          (Scope.free.pushAll ids y).toNameless = .free z := by
        cases Scope.free.pushAll ids y <;> simp [Slot.shift, Slot.toNameless]
      rw [hshift, ih, List.mem_cons, not_or]
      exact and_congr_right fun h => by simp [← h, hy]

/-- The entry of a number, without those behind it. -/
theorem lookup_eq (entries : List (Nat × Term)) (id : Nat) :
    entries.lookup id = (after entries id).map Prod.fst := by
  induction entries with
  | nil => rfl
  | cons e entries ih =>
    obtain ⟨i, value⟩ := e
    by_cases h : id = i
    · simp [after, h]
    · rw [List.lookup_cons, beq_eq_false_iff_ne.mpr h, after, if_neg h]
      exact ih

/-- A number that is bound has no entry. -/
theorem after_without {ids : List Nat} {entries : List (Nat × Term)} {id : Nat} (h : id ∈ ids) :
    after (without ids entries) id = none := by
  induction entries with
  | nil => rfl
  | cons e entries ih =>
    by_cases he : e.1 ∈ ids
    · rw [without_cons_of_mem _ he, ih]
    · have hne : id ≠ e.1 := fun heq => he (heq ▸ h)
      rw [without_cons_of_not_mem _ he, after, if_neg hne, ih]

/-- Another one has the same. -/
theorem lookup_without {ids : List Nat} {entries : List (Nat × Term)} {id : Nat} (h : id ∉ ids) :
    (without ids entries).lookup id = entries.lookup id := by
  induction entries with
  | nil => rfl
  | cons e entries ih =>
    obtain ⟨i, value⟩ := e
    by_cases he : i ∈ ids
    · have hne : id ≠ i := fun heq => h (heq ▸ he)
      rw [without_cons_of_mem _ he, ih, List.lookup_cons, beq_eq_false_iff_ne.mpr hne]
    · rw [without_cons_of_not_mem _ he, List.lookup_cons, List.lookup_cons, ih]

/-- Binders hide the entries of their numbers. -/
theorem Scope.pushAll_atOnce (bound ids : List Nat) (entries : List (Nat × Term)) :
    (Scope.atOnce bound entries).pushAll ids =
      Scope.atOnce (ids ++ bound) (without ids entries) := by
  induction ids with
  | nil => simp [Scope.pushAll]
  | cons id ids ih =>
    rw [Scope.pushAll, ih]
    funext y
    by_cases hy : y = id
    · have hnone : (without (id :: ids) entries).lookup y = none := by
        rw [lookup_eq, after_without (by simp [hy])]
        rfl
      subst hy
      simp [Scope.atOnce, hnone, Scope.pushAll]
    · have hsame : (without (id :: ids) entries).lookup y = (without ids entries).lookup y := by
        by_cases hmem : y ∈ ids
        · rw [lookup_eq, lookup_eq, after_without hmem, after_without (List.mem_cons_of_mem _ hmem)]
        · rw [lookup_without hmem, lookup_without (by simp [hy, hmem])]
      rw [Scope.push_of_ne _ hy]
      simp only [Scope.atOnce, hsame, List.cons_append, Scope.pushAll]
      cases (without ids entries).lookup y with
      | none => exact (Scope.push_of_ne _ hy).symm
      | some value => rfl

/-- A value reads below binders as it reads outside, if its identifiers come back. -/
theorem strip_value_iff {ids : List Nat} {entries : List (Nat × Term)} {value : Term} :
    strip (Scope.free.pushAll ids) (replaceAll entries value) = nameless value ↔
      ∀ q ∈ leaves value, q.2 ∉ q.1 →
        q.2 ∉ ids ∧ standsFor q.2 (chase (without q.1 entries) (.Var "" q.2)) := by
  rw [nameless, strip_replaceAll_iff]
  refine forall₂_congr fun q _ => ?_
  by_cases hmem : q.2 ∈ q.1
  · have hsame : (Scope.free.pushAll ids).pushAll q.1 q.2 = Scope.free.pushAll q.1 q.2 :=
      Scope.pushAll_congr fun h => absurd hmem h
    simp [leafReading, after_without hmem, hsame, hmem]
  · have hfree : (Scope.free.pushAll q.1 q.2).toNameless = .free q.2 := pushAll_free.mpr ⟨rfl, hmem⟩
    rw [hfree, ← strip_replaceAll_var _ _ "", strip_eq_free, ← Scope.pushAll_append]
    simp only [pushAll_free, List.mem_append, not_or, hmem, not_false_eq_true, true_and,
      forall_const]
    constructor
    · rintro ⟨y, hy, heq, hids⟩
      exact ⟨hids, heq ▸ hy⟩
    · rintro ⟨hids, hy⟩
      exact ⟨q.2, hy, rfl, hids⟩

/-- **One substitution after the other is one for all exactly under the condition.** -/
theorem strip_replaceAll_atOnce {bound : List Nat} {entries : List (Nat × Term)} {ty : Term} :
    strip (Scope.free.pushAll bound) (replaceAll entries ty) =
      strip (Scope.atOnce bound entries) ty ↔ Chased bound entries ty := by
  rw [strip_replaceAll_iff]
  refine forall₂_congr fun p _ => ?_
  rw [← Scope.pushAll_append, Scope.pushAll_atOnce]
  simp only [leafReading, Scope.atOnce, lookup_eq]
  cases after (without p.1 entries) p.2 with
  | none => simp
  | some e =>
    simp only [Option.map_some, Slot.toNameless, Option.mem_def, Option.some.injEq, forall_eq']
    exact strip_value_iff

/-! ## 5. Telescopes of instances -/

/-- The mapped binders at the front of a type, each with its value, and the type below them.  An
entry is dropped where a later binder has its identifier. -/
def telescope (substitutions : Substitutions) :
    List (Nat × Term) → Term → List (Nat × Term) × Term
  | entries, .All quant name id domain body =>
    match substitutions.get id with
    | some value => telescope substitutions (without [id] entries ++ [(id, value)]) body
    | none => (entries, .All quant name id domain body)
  | entries, ty => (entries, ty)

/-- The type starts with a mapped binder. -/
def opens (substitutions : Substitutions) : Term → Bool
  | .All _ _ id _ _ => substitutions.containsKey id
  | _ => false

section Telescope

variable {substitutions : Substitutions} {ty : Term}

/-- **A type is opened as often as what its replacement reads as.** -/
theorem opens_replaceAll (entries : List (Nat × Term)) :
    opens substitutions (replaceAll entries ty) = opens substitutions (chase entries ty) := by
  induction entries generalizing ty with
  | nil => rfl
  | cons e entries ih =>
    obtain ⟨i, value⟩ := e
    cases ty with
    | Var name id => rw [replaceAll_cons, substitute, ih, chase]
    | Ref | GpuRef | Qnt | Qua | Efq | Rfl | Hole =>
      rw [replaceAll_of_fixed ((i, value) :: entries)]
      · rfl
      · exact fun _ _ => rfl
    | _ => simp [chase, opens, -replaceAll_cons]

/-- A type that opens nothing is replaced once. -/
theorem specializeType_of_closed (fuel : Nat) (h : opens substitutions ty = false) :
    specializeType (fuel + 1) ty substitutions = some (replaceType ty substitutions) := by
  cases ty with
  | All q name id d b =>
    have hnone : substitutions.get id = none := by simpa [opens, Substitutions.containsKey] using h
    rw [specializeType, hnone]
  | _ => rfl

/-- With more fuel the result is the same. -/
theorem specializeType_mono {fuel : Nat} {out : Term}
    (h : specializeType fuel ty substitutions = some out) :
    specializeType (fuel + 1) ty substitutions = some out := by
  induction fuel generalizing ty with
  | zero => cases h
  | succ fuel ih =>
    cases hopens : opens substitutions ty with
    | false =>
      rw [specializeType_of_closed _ hopens] at h ⊢
      exact h
    | true =>
      cases ty with
      | All q name id d b =>
        obtain ⟨value, hvalue⟩ : ∃ value, substitutions.get id = some value :=
          Option.isSome_iff_exists.mp hopens
        rw [specializeType, hvalue] at h ⊢
        exact ih h
      | _ => cases hopens

theorem specializeType_le {fuel fuel' : Nat} {out : Term} (hle : fuel ≤ fuel')
    (h : specializeType fuel ty substitutions = some out) :
    specializeType fuel' ty substitutions = some out := by
  induction hle with
  | refl => exact h
  | step _ ih => exact specializeType_mono ih

/-- **A specialized type** is the type below its mapped binders, with their values put in before
the map, unless putting them in uncovers another mapped binder. -/
theorem specializeType_eq {entries : List (Nat × Term)}
    (h : opens substitutions (chase (telescope substitutions entries ty).1
      (telescope substitutions entries ty).2) = false) :
    ∃ fuel, specializeType fuel (replaceAll entries ty) substitutions =
      some (replaceAll ((telescope substitutions entries ty).1 ++ substitutions.entries)
        (telescope substitutions entries ty).2) := by
  fun_induction telescope substitutions entries ty with
  | case1 entries q name id d b value hvalue ih =>
    obtain ⟨fuel, hfuel⟩ := ih h
    refine ⟨fuel + 1, ?_⟩
    rw [replaceAll_all, specializeType, hvalue]
    rwa [replaceAll_append] at hfuel
  | case2 entries q name id d b hnone =>
    refine ⟨1, ?_⟩
    rw [specializeType_of_closed 0 (by rwa [opens_replaceAll]), replaceAll_append]
    rfl
  | case3 entries ty hne =>
    refine ⟨1, ?_⟩
    rw [specializeType_of_closed 0 (by rwa [opens_replaceAll]), replaceAll_append]
    rfl

/-- The values of a telescope are those of the map. -/
theorem lookup_telescope {entries : List (Nat × Term)}
    (h : ∀ id value, entries.lookup id = some value → substitutions.get id = some value)
    (id : Nat) : ((telescope substitutions entries ty).1 ++ substitutions.entries).lookup id =
      substitutions.get id := by
  have hclosed : ∀ entries : List (Nat × Term),
      (∀ id value, entries.lookup id = some value → substitutions.get id = some value) →
      (entries ++ substitutions.entries).lookup id = substitutions.get id := by
    intro entries h
    rw [List.lookup_append]
    cases hlookup : entries.lookup id with
    | none => rfl
    | some value => exact (h id value hlookup).symm
  fun_induction telescope substitutions entries ty with
  | case1 entries q name x d b value hvalue ih =>
    refine ih fun id' value' hlookup => ?_
    rw [List.lookup_append, Option.or_eq_some_iff] at hlookup
    rcases hlookup with hlookup | ⟨-, hlookup⟩
    · by_cases hx : id' ∈ [x]
      · rw [lookup_eq, after_without hx] at hlookup
        cases hlookup
      · exact h id' value' (lookup_without hx ▸ hlookup)
    · by_cases hx : id' = x
      · simp only [hx, List.lookup_cons, beq_self_eq_true, Option.some.injEq] at hlookup
        rw [hx, hvalue, hlookup]
      · simp [List.lookup_cons, beq_eq_false_iff_ne.mpr hx] at hlookup
  | case2 entries q name x d b hnone => exact hclosed entries h
  | case3 entries ty hne => exact hclosed entries h

/-- **A specialized type is its own telescope's body with everything put in at once**, exactly
under the condition. -/
theorem strip_telescope_atOnce {bound : List Nat} :
    strip (Scope.free.pushAll bound)
        (replaceAll ((telescope substitutions [] ty).1 ++ substitutions.entries)
          (telescope substitutions [] ty).2) =
      strip (Scope.atOnce bound substitutions.entries) (telescope substitutions [] ty).2 ↔
    Chased bound ((telescope substitutions [] ty).1 ++ substitutions.entries)
      (telescope substitutions [] ty).2 := by
  rw [← strip_replaceAll_atOnce]
  have hsame : Scope.atOnce bound ((telescope substitutions [] ty).1 ++ substitutions.entries) =
      Scope.atOnce bound substitutions.entries := by
    funext id
    have hlookup := @lookup_telescope substitutions ty [] (by simp) id
    simp only [Scope.atOnce, hlookup, Substitutions.get]
  rw [hsame]

end Telescope

end TeamyBend.Compiler
