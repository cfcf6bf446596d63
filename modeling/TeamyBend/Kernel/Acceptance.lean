/-
# What acceptance guarantees

`checkBook` reads a book declaration by declaration, and its answer is a statement about all of
them.  `Declared` is what it says about names, holes and assumptions, and `Proved` what it says
about bodies: each was checked by the rules, in an engine that holds the declarations before it
and no other.  Both are invariants of the loop; `validateDef_spec` and `validateAdt_spec` say once
what a single step has checked and what it adds.
-/
import TeamyBend.Kernel.Book
import TeamyBend.Kernel.Usage
import Mathlib.Data.List.Dedup

namespace TeamyBend.Kernel

/-! ## 1. Inspected terms -/

mutual

/-- The holes of a term, wherever they stand. -/
def Term.holes : Term → List String
  | .Hole name => [name]
  | .Typ g => g.holes
  | .Min a b | .App a b | .Ann a b => a.holes ++ b.holes
  | .All _ _ _ domain body => domain.holes ++ body.holes
  | .Lam _ _ body => body.holes
  | .Adt _ args _ | .Ctr _ args => holesArgs args
  | .Mat _ arm fallback => arm.holes ++ fallback.holes
  | .Eql left right ty => left.holes ++ right.holes ++ ty.holes
  | .Rwt evidence motive body => evidence.holes ++ motive.holes ++ body.holes
  | .Let bindings body => holesBindings bindings ++ body.holes
  | _ => []

/-- `Term.holes` on an argument list. -/
def holesArgs : List Term → List String
  | [] => []
  | a :: args => a.holes ++ holesArgs args

/-- `Term.holes` on the values of a `let`. -/
def holesBindings : List (LetBinding Term) → List String
  | [] => []
  | ⟨_, _, _, value⟩ :: bindings => value.holes ++ holesBindings bindings

end

theorem mem_holesArgs {name : String} {args : List Term} :
    name ∈ holesArgs args ↔ ∃ a ∈ args, name ∈ a.holes := by
  induction args with
  | nil => simp [holesArgs]
  | cons a args ih => simp [holesArgs, ih]

theorem mem_holesBindings {name : String} {bindings : List (LetBinding Term)} :
    name ∈ holesBindings bindings ↔ ∃ b ∈ bindings, name ∈ b.value.holes := by
  induction bindings with
  | nil => simp [holesBindings]
  | cons b bindings ih => simp [holesBindings, ih]

/-- A hole is at the root or in one of the parts. -/
theorem mem_holes {name : String} {t : Term} :
    name ∈ t.holes ↔ t.hole = some name ∨ ∃ p ∈ t.parts, name ∈ p.holes := by
  cases t <;> simp [Term.holes, Term.hole, Term.parts, mem_holesArgs, mem_holesBindings, eq_comm,
    or_comm, or_left_comm]

/-- A free variable is the number of the term or free in a part. -/
theorem freeIn_parts {x : Nat} {t : Term} (h : FreeIn x t) :
    x ≤ t.number ∨ ∃ p ∈ t.parts, FreeIn x p := by
  cases h with
  | var => exact .inl (Nat.le_refl _)
  | letValue hb h => exact .inr ⟨_, by simpa [Term.parts] using .inl ⟨_, hb, rfl⟩, h⟩
  | adt ha h => exact .inr ⟨_, by simpa [Term.parts] using ha, h⟩
  | ctr ha h => exact .inr ⟨_, by simpa [Term.parts] using ha, h⟩
  | _ =>
    refine .inr ⟨_, ?_, by assumption⟩
    simp [Term.parts]

/-- The largest of some numbers. -/
theorem le_foldl_max {ids : List Nat} {n x : Nat} (h : x ≤ n ∨ x ∈ ids) :
    x ≤ ids.foldl max n := by
  induction ids generalizing n with
  | nil => simpa using h
  | cons id ids ih =>
    refine ih ?_
    rcases h with h | h
    · exact .inl (Nat.le_trans h (Nat.le_max_left ..))
    · rcases List.mem_cons.mp h with rfl | h
      · exact .inl (Nat.le_max_right ..)
      · exact .inr h

/-- A binder is below the number of the term or in a part. -/
theorem boundIn_parts {x : Nat} {t : Term} (h : BoundIn x t) :
    x ≤ t.number ∨ ∃ p ∈ t.parts, BoundIn x p := by
  cases h with
  | all => exact .inl (Nat.le_refl _)
  | lam => exact .inl (Nat.le_refl _)
  | letBinder hb hid => exact .inl (le_foldl_max (.inr (hid ▸ List.mem_map_of_mem hb)))
  | letValue hb h => exact .inr ⟨_, by simpa [Term.parts] using .inl ⟨_, hb, rfl⟩, h⟩
  | adt ha h => exact .inr ⟨_, by simpa [Term.parts] using ha, h⟩
  | ctr ha h => exact .inr ⟨_, by simpa [Term.parts] using ha, h⟩
  | _ =>
    refine .inr ⟨_, ?_, by assumption⟩
    simp [Term.parts]

/-- A term is below a bound that its number and its parts are below. -/
theorem below_of_parts {n : Nat} {t : Term} (hnumber : t.number < n)
    (hparts : ∀ p ∈ t.parts, Below n p) : Below n t := by
  rintro x (hx | hx)
  · rcases freeIn_parts hx with h | ⟨p, hp, h⟩
    · exact Nat.lt_of_le_of_lt h hnumber
    · exact hparts p hp x (.inl h)
  · rcases boundIn_parts hx with h | ⟨p, hp, h⟩
    · exact Nat.lt_of_le_of_lt h hnumber
    · exact hparts p hp x (.inr h)

/-- What is known of a term when a pass over it has found `found`. -/
structure Inspected (found : InspectedInput) (t : Term) : Prop where
  below : Below (found.highest + 1) t
  holes : found.hole = none → t.holes = []

/-- A pass that goes on finds more. -/
structure InspectedInput.Grows (found found' : InspectedInput) : Prop where
  highest : found.highest ≤ found'.highest
  hole : found'.hole = none → found.hole = none

theorem InspectedInput.Grows.trans {a b c : InspectedInput} (h : a.Grows b) (h' : b.Grows c) :
    a.Grows c := ⟨Nat.le_trans h.highest h'.highest, fun hc => h.hole (h'.hole hc)⟩

theorem InspectedInput.Grows.inspected {found found' : InspectedInput} {t : Term}
    (h : found.Grows found') (ht : Inspected found t) : Inspected found' t :=
  ⟨ht.below.mono (Nat.succ_le_succ h.highest), fun hole => ht.holes (h.hole hole)⟩

/-- **The pass inspects every term on its stack.** -/
theorem inspectLoop_spec {remaining : Nat} {stack : List (Term × Nat)}
    {found found' : InspectedInput} (h : inspectLoop remaining stack found = .ok found') :
    found.Grows found' ∧ ∀ p ∈ stack, Inspected found' p.1 := by
  induction remaining generalizing stack found with
  | zero =>
    cases stack with
    | nil =>
      cases h
      exact ⟨⟨Nat.le_refl _, id⟩, by simp⟩
    | cons p stack =>
      rw [inspectLoop] at h
      split at h <;> cases h
  | succ remaining ih =>
    cases stack with
    | nil =>
      cases h
      exact ⟨⟨Nat.le_refl _, id⟩, by simp⟩
    | cons p stack =>
      rw [inspectLoop] at h
      split at h
      · cases h
      · obtain ⟨hgrows, hall⟩ := ih h
        have hstep : found.Grows ⟨max found.highest p.1.number, found.hole.or p.1.hole⟩ :=
          ⟨Nat.le_max_left .., fun hnone => (Option.or_eq_none_iff.mp hnone).1⟩
        refine ⟨hstep.trans hgrows, fun q hq => ?_⟩
        rcases List.mem_cons.mp hq with rfl | hq
        · have hparts : ∀ t ∈ q.1.parts, Inspected found' t := fun t ht =>
            hall (t, q.2 + 1) (List.mem_append_left _ (List.mem_map_of_mem ht))
          refine ⟨below_of_parts ?_ fun t ht => (hparts t ht).below, fun hnone => ?_⟩
          · exact Nat.lt_succ_of_le (Nat.le_trans (Nat.le_max_right ..) hgrows.highest)
          · refine List.eq_nil_iff_forall_not_mem.mpr fun name hname => ?_
            rcases mem_holes.mp hname with hroot | ⟨t, ht, hin⟩
            · have hroot' := (Option.or_eq_none_iff.mp (hgrows.hole hnone)).2
              rw [hroot] at hroot'
              cases hroot'
            · rw [(hparts t ht).holes hnone] at hin
              cases hin
        · exact hall q (List.mem_append_right _ hq)

theorem bind_eq_ok {α β : Type} {m : Except KernelError α} {f : α → Except KernelError β} {b : β} :
    m >>= f = .ok b ↔ ∃ a, m = .ok a ∧ f a = .ok b := by
  cases m with
  | error err => exact ⟨fun h => (by cases h), fun ⟨_, h, _⟩ => (by cases h)⟩
  | ok a => exact ⟨fun h => ⟨a, rfl, h⟩, fun ⟨_, h, hf⟩ => by cases h; exact hf⟩

/-- **Every input of a declaration is inspected.** -/
theorem inspectInputs_spec {values : List Term} {found found' : InspectedInput}
    (h : inspectInputs values found = .ok found') :
    found.Grows found' ∧ ∀ t ∈ values, Inspected found' t := by
  induction values generalizing found with
  | nil =>
    cases h
    exact ⟨⟨Nat.le_refl _, id⟩, by simp⟩
  | cons value values ih =>
    obtain ⟨input, hinput, h⟩ := bind_eq_ok.mp h
    obtain ⟨hgrows, hall⟩ := ih h
    have hvalue := (inspectLoop_spec hinput).2 (value, 0) (List.mem_singleton_self _)
    have hleft : found.Grows ⟨max found.highest input.highest, found.hole.or input.hole⟩ :=
      ⟨Nat.le_max_left .., fun hnone => (Option.or_eq_none_iff.mp hnone).1⟩
    have hright : input.Grows ⟨max found.highest input.highest, found.hole.or input.hole⟩ :=
      ⟨Nat.le_max_right .., fun hnone => (Option.or_eq_none_iff.mp hnone).2⟩
    refine ⟨hleft.trans hgrows, fun t ht => ?_⟩
    rcases List.mem_cons.mp ht with rfl | ht
    · exact (hright.trans hgrows).inspected hvalue
    · exact hall t ht

/-- **The pass over a book.**  Every declaration gets the hole that its terms may have, and all
numbers are at most the highest. -/
theorem prepareDeclarations_spec {ds : List Declaration} {highest : Nat}
    {found : Nat × List (Option String)} (h : prepareDeclarations ds highest = .ok found) :
    highest ≤ found.1 ∧
      List.Forall₂ (fun d hole => ∀ t ∈ d.inputs, Inspected ⟨found.1, hole⟩ t) ds found.2 := by
  induction ds generalizing highest found with
  | nil =>
    cases h
    exact ⟨Nat.le_refl _, .nil⟩
  | cons d ds ih =>
    obtain ⟨input, hinput, h⟩ := bind_eq_ok.mp h
    obtain ⟨rest, hrest, h⟩ := bind_eq_ok.mp h
    cases h
    obtain ⟨hgrows, hall⟩ := inspectInputs_spec hinput
    obtain ⟨hle, hrest⟩ := ih hrest
    have htop : input.highest ≤ rest.1 := Nat.le_trans (le_foldl_max (.inl (Nat.le_refl _))) hle
    have hgrow : input.Grows ⟨rest.1, input.hole⟩ := ⟨htop, id⟩
    exact ⟨Nat.le_trans hgrows.highest htop,
      .cons (fun t ht => hgrow.inspected (hall t ht)) hrest⟩

/-! ## 2. Engines that hold a book -/

/-- The definitions of a name, in the order of the book. -/
def definitionsOf (declarations : List Declaration) (name : String) : List DefDecl :=
  (definitions declarations).filter (·.name = name)

/-- A definition apart from its parameters, which `complete_parameters` may replace. -/
def DefDecl.core (d : DefDecl) : DefDecl :=
  { d with parameters := [], completionParameters := none }

theorem DefDecl.name_of_core {d d' : DefDecl} (h : d'.core = d.core) : d'.name = d.name := by
  have hname : d'.core.name = d.core.name := by rw [h]
  exact hname

theorem DefDecl.ty_of_core {d d' : DefDecl} (h : d'.core = d.core) : d'.ty = d.ty := by
  have hty : d'.core.ty = d.core.ty := by rw [h]
  exact hty

theorem DefDecl.body_of_core {d d' : DefDecl} (h : d'.core = d.core) : d'.body = d.body := by
  have hbody : d'.core.body = d.core.body := by rw [h]
  exact hbody

/-- The engine holds these declarations and nothing else: of two definitions of a name it holds the
later one. -/
structure Engine.Holds (e : Engine) (declarations : List Declaration) : Prop where
  adts : ∀ name, e.adts name = (datatypes declarations).find? (·.name = name)
  defs : ∀ name, (e.defs name).map DefDecl.core =
    (definitionsOf declarations name).getLast?.map DefDecl.core
  contracts : ∀ name, e.foreignContracts name = false ∧ e.numericContracts name = false ∧
    e.opaqueContracts name = false

@[simp] theorem datatypes_append (ds ds' : List Declaration) :
    datatypes (ds ++ ds') = datatypes ds ++ datatypes ds' := List.filterMap_append

@[simp] theorem definitions_append (ds ds' : List Declaration) :
    definitions (ds ++ ds') = definitions ds ++ definitions ds' := List.filterMap_append

@[simp] theorem datatypes_adt (d : AdtDecl) : datatypes [.Adt d] = [d] := rfl

@[simp] theorem datatypes_def (d : DefDecl) : datatypes [.Def d] = [] := rfl

@[simp] theorem definitions_adt (d : AdtDecl) : definitions [.Adt d] = [] := rfl

@[simp] theorem definitions_def (d : DefDecl) : definitions [.Def d] = [d] := rfl

theorem definitionsOf_append_adt (ds : List Declaration) (d : AdtDecl) (name : String) :
    definitionsOf (ds ++ [.Adt d]) name = definitionsOf ds name := by
  simp [definitionsOf]

theorem definitionsOf_append_def (ds : List Declaration) (d : DefDecl) (name : String) :
    definitionsOf (ds ++ [.Def d]) name =
      definitionsOf ds name ++ if d.name = name then [d] else [] := by
  by_cases h : d.name = name <;> simp [definitionsOf, h]

theorem holds_empty (pointers : Pointers) (display : Term → String) (freshId : Nat) :
    (Engine.empty pointers display freshId).Holds [] :=
  ⟨fun _ => rfl, fun _ => rfl, fun _ => ⟨rfl, rfl, rfl⟩⟩

section Holds

variable {e e' : Engine} {ds : List Declaration}

theorem Engine.Holds.extends (h : e.Holds ds) (he : e.Extends e') : e'.Holds ds := by
  have hcontracts := he.contracts
  simp only [Prod.mk.injEq] at hcontracts
  obtain ⟨hforeign, hnumeric, hopaque⟩ := hcontracts
  refine ⟨?_, ?_, ?_⟩
  · rw [he.adts]
    exact h.adts
  · rw [he.defs]
    exact h.defs
  · rw [hforeign, hnumeric, hopaque]
    exact h.contracts

/-- A datatype with a new name is declared. -/
theorem Engine.Holds.insertAdt {d : AdtDecl} (h : e.Holds ds) (hnew : e.adts d.name = none) :
    (e.insertAdt d).Holds (ds ++ [.Adt d]) := by
  refine ⟨fun name => ?_, fun name => ?_, h.contracts⟩
  · rw [datatypes_append, datatypes_adt, List.find?_append, ← h.adts]
    by_cases hname : name = d.name
    · subst hname
      simp [Engine.insertAdt, hnew]
    · simp [Engine.insertAdt, hname, Ne.symm hname]
  · rw [definitionsOf_append_adt]
    exact h.defs name

/-- A definition is declared. -/
theorem Engine.Holds.insertDef {d d' : DefDecl} (h : e.Holds ds) (hcore : d'.core = d.core) :
    (e.insertDef d').Holds (ds ++ [.Def d]) := by
  have hname : d'.name = d.name := DefDecl.name_of_core hcore
  refine ⟨fun name => ?_, fun name => ?_, h.contracts⟩
  · rw [datatypes_append, datatypes_def, List.append_nil]
    exact h.adts name
  · rw [definitionsOf_append_def]
    by_cases hd : name = d.name
    · subst hd
      simp [Engine.insertDef, hname, hcore]
    · have hdefs := h.defs name
      simpa [Engine.insertDef, hname, hd, Ne.symm hd] using hdefs

/-- The datatypes that are held. -/
theorem Engine.Holds.adt_mem (h : e.Holds ds) {name : String} {adt : AdtDecl}
    (hadt : e.adts name = some adt) : adt ∈ datatypes ds ∧ adt.name = name := by
  rw [h.adts] at hadt
  exact ⟨List.mem_of_find?_eq_some hadt, by simpa using List.find?_some hadt⟩

theorem Engine.Holds.no_adt (h : e.Holds ds) {name : String} (hnone : e.adts name = none) :
    ∀ a ∈ datatypes ds, a.name ≠ name := by
  rw [h.adts] at hnone
  simpa using hnone

/-- The definition that is held is one of the book's. -/
theorem Engine.Holds.def_mem (h : e.Holds ds) {name : String} {d : DefDecl}
    (hd : e.defs name = some d) :
    ∃ d' ∈ definitions ds, d'.name = name ∧ d.core = d'.core ∧
      (definitionsOf ds name).getLast? = some d' := by
  have hdefs := h.defs name
  rw [hd] at hdefs
  cases hlast : (definitionsOf ds name).getLast? with
  | none =>
    rw [hlast] at hdefs
    cases hdefs
  | some d' =>
    rw [hlast] at hdefs
    have hmem := List.mem_of_getLast? hlast
    simp only [definitionsOf, List.mem_filter, decide_eq_true_eq] at hmem
    exact ⟨d', hmem.1, hmem.2, Option.some.inj hdefs, rfl⟩

theorem Engine.Holds.no_def (h : e.Holds ds) {name : String} (hnone : e.defs name = none) :
    definitionsOf ds name = [] := by
  have hdefs := h.defs name
  rw [hnone] at hdefs
  simpa using hdefs.symm

end Holds

/-! ## 3. One declaration -/

section Steps

variable {gas : Nat} {e e' : Engine} {u : Unit}

theorem Engine.Extends.insertDef (h : e.Extends e') (d : DefDecl) :
    (e.insertDef d).Extends (e'.insertDef d) := by
  refine ⟨?_, h.adts, h.contracts, h.freshId, h.aliases⟩
  simp [Engine.insertDef, h.defs]

/-- A later version of a definition replaces an earlier one. -/
theorem Engine.Extends.reinsertDef {d d' : DefDecl} (h : (e.insertDef d).Extends e')
    (hname : d'.name = d.name) : (e.insertDef d').Extends (e'.insertDef d') := by
  refine ⟨funext fun name => ?_, h.adts, h.contracts, h.freshId, h.aliases⟩
  by_cases hd : name = d'.name
  · simp [Engine.insertDef, hd]
  · have hdefs : e'.defs name = e.defs name := by
      rw [h.defs]
      simp [Engine.insertDef, ← hname, hd]
    simp [Engine.insertDef, hd, hdefs]

theorem keeps_completeLoop (completed : Bool) (names : List (String × Nat)) (ids : List Nat)
    (telescope : Term) : Keeps (completeLoop gas completed names ids telescope) := by
  induction names generalizing ids telescope with
  | nil => exact keeps_pure _
  | cons p names ih =>
    refine .ite (keeps_fail _) ((keeps_whnf _ _).bind fun t => ?_)
    split
    · exact (ih _ _).bind fun _ => keeps_pure _
    · exact keeps_fail _

/-- Completion changes the parameters only. -/
theorem returns_completeParameters {definition : DefDecl} {r : DefDecl × List Quant}
    (h : Returns (completeParameters gas definition) e r e') :
    e.Extends e' ∧ r.1.core = definition.core := by
  simp only [completeParameters, returns_bind, returns_ite, returns_pure] at h
  obtain ⟨found, e₁, hloop, h⟩ := h
  have hext := keeps_completeLoop _ _ _ _ _ _ _ hloop
  split at h
  · obtain ⟨rfl, rfl⟩ := h
    exact ⟨hext, rfl⟩
  · obtain ⟨rfl, rfl⟩ := h
    exact ⟨hext, rfl⟩

theorem keeps_checkBody (lhs : Lhs) (checked : DefDecl) (quants : List Quant)
    (body : Option Term) : Keeps (checkBody gas lhs checked quants body) := by
  cases body with
  | none => exact keeps_pure _
  | some body => exact ((keep_rules gas).check _ _ _ _ _).bind fun _ => keeps_pure _

/-- What `validate_def` has checked of a definition, and what it leaves. -/
structure DefValidated (gas : Nat) (e : Engine) (d : DefDecl) (e' : Engine) : Prop where
  strict : d.unsafe_ = false ∧ d.foreign = false
  apart : e.adts d.name = none
  law : ∀ previous, e.defs d.name = some previous → previous.body = none ∧ d.body.isSome ∧
    ∃ e₁, Returns (compare gas .Equal previous.ty d.ty) e true e₁
  body : ∀ body, d.body = some body → ∃ pending e₁ lhs u e₂,
    pending.core = { d with body := none }.core ∧ (e.insertDef pending).Extends e₁ ∧
    lhs.name = d.name ∧ Returns (check gas lhs body .Lone d.ty .new) e₁ u e₂
  leaves : ∃ checked, checked.core = d.core ∧ (e.insertDef checked).Extends e'

/-- A definition fills a declaration without a body, of the same type. -/
theorem returns_checkPrevious {definition : DefDecl} {previous : Option DefDecl}
    (h : Returns (checkPrevious gas definition false previous) e u e') :
    e.Extends e' ∧ ∀ d, previous = some d → d.body = none ∧ definition.body.isSome ∧
      ∃ e₁, Returns (compare gas .Equal d.ty definition.ty) e true e₁ := by
  cases previous with
  | none =>
    obtain ⟨-, rfl⟩ := returns_pure.mp h
    exact ⟨.refl _, fun d hd => by cases hd⟩
  | some previous =>
    simp only [checkPrevious, returns_bind, returns_get, returns_ite, returns_fail,
      returns_pure] at h
    obtain ⟨_, _, ⟨rfl, rfl⟩, h⟩ := h
    split at h
    · exact h.elim
    · rename_i hopen
      obtain ⟨equal, e₁, hcompare, h⟩ := h
      split at h
      · rename_i hequal
        obtain ⟨-, rfl⟩ := h
        simp only [not_or, Bool.not_false, and_true] at hopen
        refine ⟨keeps_compare _ _ _ _ _ _ _ hcompare, fun d hd => ?_⟩
        cases hd
        exact ⟨by simpa using hopen.1, by simpa [Option.isSome_iff_ne_none] using hopen.2.2.2.2,
          e₁, hequal ▸ hcompare⟩
      · exact h.elim

/-- **A definition that passes `validate_def`.** -/
theorem validateDef_spec {d : DefDecl} (h : Returns (validateDef gas d) e u e') :
    DefValidated gas e d e' := by
  rw [validateDef, returns_ite] at h
  split at h
  · exact (returns_fail h).elim
  rename_i hstrict
  simp only [validateDefinition, returns_bind, returns_get, returns_ite, returns_fail] at h
  obtain ⟨_, _, ⟨rfl, rfl⟩, h⟩ := h
  split at h
  · exact h.elim
  rename_i hapart
  split at h
  · exact h.elim
  obtain ⟨_, e₁, hprevious, h⟩ := h
  obtain ⟨hext, hlaw⟩ := returns_checkPrevious hprevious
  simp only [declareDefinition, returns_bind, returns_modify] at h
  obtain ⟨-, _, rfl, _, e₂, hty, completed, e₃, hcompleted, -, _, rfl, _, e₄, hbody, rfl⟩ := h
  obtain ⟨hext₃, hcore⟩ := returns_completeParameters hcompleted
  have hname : completed.1.name = d.name := DefDecl.name_of_core hcore
  -- the engine before the body holds the pending definition, as `e` would with it
  have hpending : (e.insertDef { completed.1 with body := none }).Extends
      (e₃.insertDef { completed.1 with body := none }) :=
    (hext.insertDef _).trans
      (Engine.Extends.reinsertDef (((keep_rules gas).check _ _ _ _ _ _ _ _ hty).trans hext₃) hname)
  refine ⟨by simpa using hstrict, by simpa using hapart, hlaw, fun body hd => ?_, completed.1,
    hcore, Engine.Extends.reinsertDef (hpending.trans (keeps_checkBody _ _ _ _ _ _ _ hbody)) rfl⟩
  rw [DefDecl.body_of_core hcore, hd] at hbody
  simp only [checkBody, returns_bind] at hbody
  obtain ⟨v, e₅, hbody, -⟩ := hbody
  refine ⟨{ completed.1 with body := none }, _, { definitionLhs d false with
    remaining := completed.1.parameters.length, quants := completed.2 }, v, e₅, ?_, hpending, rfl,
    ?_⟩
  · exact congrArg (fun c : DefDecl => { c with body := none }) hcore
  · rw [← DefDecl.ty_of_core hcore]
    exact hbody

/-! ### Datatypes -/

/-- No constructor of a datatype has the name of another one. -/
theorem returns_checkConstructors {values : List AdtDecl} {declaration : AdtDecl}
    {constructors : List ConstructorDecl}
    (h : Returns (checkConstructors values declaration constructors) e u e') :
    e = e' ∧ ∀ c ∈ constructors, constructorFamily values c.name = none ∧
      declaration.constructors.countP (·.name = c.name) = 1 := by
  induction constructors with
  | nil =>
    obtain ⟨-, rfl⟩ := returns_pure.mp h
    exact ⟨rfl, by simp⟩
  | cons c constructors ih =>
    rw [checkConstructors, returns_ite] at h
    split at h
    · exact (returns_fail h).elim
    · rename_i hc
      obtain ⟨rfl, hall⟩ := ih h
      simp only [not_or, Bool.not_eq_true, Option.isSome_eq_false_iff, Option.isNone_iff_eq_none,
        Decidable.not_not] at hc
      exact ⟨rfl, List.forall_mem_cons.mpr ⟨hc, hall⟩⟩

theorem keeps_checkFields (declaration : AdtDecl) (i : Nat) (binders : List (Binder Term))
    (Γ : Context) : Keeps (checkFields gas declaration i binders Γ) := by
  induction binders generalizing i Γ with
  | nil => exact keeps_pure _
  | cons binder binders ih =>
    exact ((keep_rules gas).check _ _ _ _ _).bind fun _ => .ite (keeps_fail _) (ih _ _)

/-- The telescopes of the constructors are checked one after another. -/
theorem keeps_checkTelescopes (declaration : AdtDecl) (constructors : List ConstructorDecl) :
    Keeps (checkTelescopes gas declaration constructors) := by
  induction constructors with
  | nil => exact keeps_pure _
  | cons constructor constructors ih =>
    exact (keeps_checkFields _ _ _ _).bind fun _ => ih

/-- What `validate_adt` has checked of the names of a datatype, and what it leaves. -/
structure AdtValidated (values : List AdtDecl) (e : Engine) (d : AdtDecl) (e' : Engine) :
    Prop where
  fresh : e.adts d.name = none ∧ e.defs d.name = none
  family : ∀ c ∈ d.constructors, constructorFamily values c.name = none ∧
    d.constructors.countP (·.name = c.name) = 1
  leaves : (e.insertAdt d).Extends e'

/-- **A datatype that passes `validate_adt`.** -/
theorem validateAdt_spec {values : List AdtDecl} {d : AdtDecl}
    (h : Returns (validateAdt gas values d) e u e') : AdtValidated values e d e' := by
  simp only [validateAdt, returns_bind, returns_get, returns_ite, returns_fail] at h
  obtain ⟨_, _, ⟨rfl, rfl⟩, h⟩ := h
  split at h
  · exact h.elim
  rename_i hfresh
  obtain ⟨_, e₁, hconstructors, h⟩ := h
  obtain ⟨rfl, hfamily⟩ := returns_checkConstructors hconstructors
  simp only [declareAdt, returns_bind, returns_modify] at h
  obtain ⟨-, _, rfl, _, e₂, hkind, v, e₃, hv, h⟩ := h
  have hext := ((keep_rules gas).check _ _ _ _ _ _ _ _ hkind).trans (keeps_whnf _ _ _ _ _ hv)
  refine ⟨by simpa using hfresh, hfamily, ?_⟩
  split at h
  · exact hext.trans (keeps_checkTelescopes _ _ _ _ _ h)
  · exact (returns_fail h).elim

end Steps

/-! ## 4. Whole books -/

/-- A name is defined once, or declared as a law and completed once. -/
def Once : List DefDecl → Prop
  | [] => True
  | [_] => True
  | [law, d] => law.body = none ∧ d.body.isSome
  | _ => False

/-- What an accepted list of declarations is: names are declared once, every constructor name has
one family, nothing is assumed and no term has a hole. -/
structure Declared (ds : List Declaration) : Prop where
  adts : ((datatypes ds).map (·.name)).Nodup
  apart : ∀ a ∈ datatypes ds, ∀ d ∈ definitions ds, a.name ≠ d.name
  defs : ∀ name, Once (definitionsOf ds name)
  families : (((datatypes ds).flatMap (·.constructors)).map (·.name)).Nodup
  strict : ∀ d ∈ definitions ds, d.unsafe_ = false ∧ d.foreign = false
  holes : ∀ d ∈ ds, ∀ t ∈ d.inputs, t.holes = []

/-- The names that the live part of a definition may use after some declarations. -/
def Usable (before : List Declaration) (self name : String) : Prop :=
  name = self ∨ (∃ a ∈ datatypes before, a.name = name) ∨
    ∃ d ∈ definitions before, d.name = name ∧ d.body.isSome

/-- What was checked of a definition after the declarations `before`: its type is the type of the
law that it completes, and its body has that type, with live names that are checked before. -/
structure Proved (gas : Nat) (before : List Declaration) (d : DefDecl) : Prop where
  law : ∀ law ∈ definitionsOf before d.name, law.body = none ∧
    ∃ e e₁, e.Holds before ∧ Returns (compare gas .Equal law.ty d.ty) e true e₁
  body : ∀ body, d.body = some body → ∃ e lhs u e₁ t,
    e.Holds (before ++ [.Def { d with body := none }]) ∧
    Returns (check gas lhs body .Lone d.ty .new) e u e₁ ∧
    ChecksBy (e.Settled d.name) e .new body d.ty t ∧
    ∀ name, e.Settled d.name name → Usable before d.name name

/-- **Accepted declarations.** -/
structure AcceptedBook (gas : Nat) (ds : List Declaration) : Prop where
  declared : Declared ds
  proved : ∀ before d after, ds = before ++ .Def d :: after → Proved gas before d

theorem acceptedBook_nil (gas : Nat) : AcceptedBook gas [] :=
  ⟨⟨.nil, by simp [datatypes], fun _ => trivial, .nil, by simp [definitions], by simp⟩,
    fun before d after h => by simp at h⟩

section Run

variable {gas top : Nat} {e e' : Engine} {ds : List Declaration} {u : Unit}

/-- A live name is the definition itself or checked before it. -/
theorem Engine.Holds.usable {d : DefDecl} (h : e.Holds (ds ++ [.Def { d with body := none }]))
    {name : String} (hname : e.Settled d.name name) : Usable ds d.name name := by
  obtain ⟨hforeign, hnumeric, hopaque⟩ := h.contracts name
  rcases hname with ⟨adt, hadt⟩ | hself | ⟨definition, body, hdef, hbody⟩ | hcontract
  · obtain ⟨hmem, hadt⟩ := h.adt_mem hadt
    exact .inr (.inl ⟨adt, by simpa using hmem, hadt⟩)
  · exact .inl hself
  · obtain ⟨d', hmem, hd', hcore, -⟩ := h.def_mem hdef
    have hsome : d'.body = some body := (DefDecl.body_of_core hcore).symm.trans hbody
    rw [definitions_append, definitions_def] at hmem
    rcases List.mem_append.mp hmem with hmem | hmem
    · exact .inr (.inr ⟨d', hmem, hd', by simp [hsome]⟩)
    · rw [List.mem_singleton] at hmem
      subst hmem
      cases hsome
  · simp [hforeign, hnumeric, hopaque] at hcontract

/-- A declaration without holes is added. -/
theorem holes_append {d : Declaration} (hds : ∀ d ∈ ds, ∀ t ∈ d.inputs, t.holes = [])
    (hd : ∀ t ∈ d.inputs, Inspected ⟨top, none⟩ t) :
    ∀ d' ∈ ds ++ [d], ∀ t ∈ d'.inputs, t.holes = [] := by
  intro d' hd' t ht
  rcases List.mem_append.mp hd' with hd' | hd'
  · exact hds d' hd' t ht
  · rw [List.mem_singleton] at hd'
    subst hd'
    exact (hd t ht).holes rfl

/-- The law that an accepted completion has is the only definition of its name. -/
theorem DefValidated.completes {d : DefDecl} (h : DefValidated gas e d e') (he : e.Holds ds)
    (hds : Declared ds) : definitionsOf ds d.name = [] ∨
      ∃ law, definitionsOf ds d.name = [law] ∧ law.body = none ∧ d.body.isSome ∧
        ∃ e₁, Returns (compare gas .Equal law.ty d.ty) e true e₁ := by
  cases hdef : e.defs d.name with
  | none => exact .inl (he.no_def hdef)
  | some previous =>
    obtain ⟨law, -, -, hcore, hlast⟩ := he.def_mem hdef
    obtain ⟨hopen, hbody, e₁, hcompare⟩ := h.law previous hdef
    have hlaw : law.body = none := (DefDecl.body_of_core hcore).symm.trans hopen
    have honce := hds.defs d.name
    refine .inr ⟨law, ?_, hlaw, hbody, e₁, DefDecl.ty_of_core hcore ▸ hcompare⟩
    rcases hnamed : definitionsOf ds d.name with _ | ⟨x, _ | ⟨y, _ | ⟨z, rest⟩⟩⟩ <;>
      rw [hnamed] at hlast honce
    · cases hlast
    · simpa using hlast
    · have hy : y = law := by simpa using hlast
      rw [Once, hy, hlaw] at honce
      cases honce.2
    · exact honce.elim

/-- **A definition is added.** -/
theorem DefValidated.proved {d : DefDecl} (h : DefValidated gas e d e') (he : e.Holds ds)
    (hds : Declared ds) (hinspect : ∀ t ∈ (Declaration.Def d).inputs, Inspected ⟨top, none⟩ t)
    (hfresh : top + 1 ≤ e.freshId) : Proved gas ds d := by
  refine ⟨fun law hmem => ?_, fun body hbody => ?_⟩
  · rcases h.completes he hds with hnone | ⟨law', hone, hlaw, -, e₁, hcompare⟩
    · rw [hnone] at hmem
      cases hmem
    · rw [hone, List.mem_singleton] at hmem
      subst hmem
      exact ⟨hlaw, e, e₁, he, hcompare⟩
  · obtain ⟨pending, e₁, lhs, v, e₂, hcore, hext, hself, hrun⟩ := h.body body hbody
    have hmem : body ∈ (Declaration.Def d).inputs := by simp [Declaration.inputs, hbody]
    have hbelow : Below e₁.freshId body :=
      (hinspect body hmem).below.mono (Nat.le_trans hfresh hext.freshId)
    have hholds := (he.insertDef hcore).extends hext
    obtain ⟨t, ht, -⟩ := (reads gas).check (.refl e₁) hbelow hrun
    rw [hself] at ht
    exact ⟨e₁, lhs, v, e₂, t, hholds, hrun, ht, fun name => hholds.usable⟩

/-- A definition that is validated is declared. -/
theorem DefValidated.declared {d : DefDecl} (h : DefValidated gas e d e') (he : e.Holds ds)
    (hds : Declared ds) (hinspect : ∀ t ∈ (Declaration.Def d).inputs, Inspected ⟨top, none⟩ t) :
    Declared (ds ++ [.Def d]) := by
  refine ⟨?_, ?_, fun name => ?_, ?_, ?_, ?_⟩
  · simpa using hds.adts
  · intro a ha d' hd'
    rw [datatypes_append, datatypes_def, List.append_nil] at ha
    rw [definitions_append, definitions_def, List.mem_append, List.mem_singleton] at hd'
    rcases hd' with hd' | rfl
    · exact hds.apart a ha d' hd'
    · exact he.no_adt h.apart a ha
  · rw [definitionsOf_append_def]
    split
    · rename_i hname
      subst hname
      rcases h.completes he hds with hnone | ⟨law, hone, hlaw, hbody, -⟩
      · rw [hnone]
        trivial
      · rw [hone]
        exact ⟨hlaw, hbody⟩
    · rw [List.append_nil]
      exact hds.defs name
  · simpa using hds.families
  · intro d' hd'
    rw [definitions_append, definitions_def, List.mem_append, List.mem_singleton] at hd'
    rcases hd' with hd' | rfl
    · exact hds.strict d' hd'
    · exact h.strict
  · exact holes_append hds.holes hinspect

theorem eq_of_constructorFamily {values : List AdtDecl} {name : String}
    (h : constructorFamily values name = none) :
    ∀ a ∈ values, ∀ c ∈ a.constructors, c.name ≠ name := by
  simpa [constructorFamily] using h

/-- Constructors that are counted once have distinct names. -/
theorem nodup_constructors {constructors : List ConstructorDecl}
    (h : ∀ c ∈ constructors, constructors.countP (·.name = c.name) = 1) :
    (constructors.map (·.name)).Nodup := by
  rw [List.nodup_iff_count_le_one]
  intro name
  by_cases hname : name ∈ constructors.map (·.name)
  · obtain ⟨c, hc, rfl⟩ := List.mem_map.mp hname
    rw [List.count_eq_countP, List.countP_map]
    exact Nat.le_of_eq (h c hc)
  · simp [List.count_eq_zero_of_not_mem hname]

/-- **A datatype is added.** -/
theorem AdtValidated.declared {d : AdtDecl} (h : AdtValidated (datatypes ds) e d e')
    (he : e.Holds ds) (hds : Declared ds)
    (hinspect : ∀ t ∈ (Declaration.Adt d).inputs, Inspected ⟨top, none⟩ t) :
    Declared (ds ++ [.Adt d]) := by
  refine ⟨?_, ?_, fun name => ?_, ?_, ?_, ?_⟩
  · rw [datatypes_append, datatypes_adt, List.map_append, List.nodup_append]
    refine ⟨hds.adts, by simp, ?_⟩
    rintro name hname _ hd
    obtain ⟨a, ha, rfl⟩ := List.mem_map.mp hname
    obtain rfl : _ = d.name := by simpa using hd
    exact he.no_adt h.fresh.1 a ha
  · intro a ha d' hd'
    rw [datatypes_append, datatypes_adt, List.mem_append, List.mem_singleton] at ha
    rw [definitions_append, definitions_adt, List.append_nil] at hd'
    rcases ha with ha | rfl
    · exact hds.apart a ha d' hd'
    · intro hname
      have hnone := he.no_def h.fresh.2
      rw [definitionsOf, List.filter_eq_nil_iff] at hnone
      exact hnone d' hd' (by simpa using hname.symm)
  · rw [definitionsOf_append_adt]
    exact hds.defs name
  · rw [datatypes_append, datatypes_adt, List.flatMap_append, List.map_append, List.nodup_append]
    rw [List.flatMap_singleton]
    refine ⟨hds.families, nodup_constructors fun c hc => (h.family c hc).2, ?_⟩
    rintro name hname _ hd rfl
    obtain ⟨c, hc, rfl⟩ := List.mem_map.mp hname
    obtain ⟨a, ha, hca⟩ := List.mem_flatMap.mp hc
    obtain ⟨c', hc', hcc'⟩ := List.mem_map.mp hd
    exact eq_of_constructorFamily (h.family c' hc').1 a ha c hca hcc'.symm
  · rw [definitions_append, definitions_adt, List.append_nil]
    exact hds.strict
  · exact holes_append hds.holes hinspect

/-- **One step of the loop** keeps the invariant, and the engine holds one declaration more. -/
theorem validate_step {d : Declaration} (hds : AcceptedBook gas ds) (he : e.Holds ds)
    (hinspect : ∀ t ∈ d.inputs, Inspected ⟨top, none⟩ t) (hfresh : top + 1 ≤ e.freshId)
    (h : Returns (validate gas ds d) e u e') :
    AcceptedBook gas (ds ++ [d]) ∧ e'.Holds (ds ++ [d]) ∧ e.freshId ≤ e'.freshId := by
  have hproved : Declared (ds ++ [d]) → (∀ d', d = .Def d' → Proved gas ds d') →
      AcceptedBook gas (ds ++ [d]) := by
    refine fun hdeclared hlast => ⟨hdeclared, fun before d' after heq => ?_⟩
    rcases List.eq_nil_or_concat after with rfl | ⟨after, last, rfl⟩
    · obtain ⟨rfl, hd⟩ := List.append_inj' heq rfl
      exact hlast d' (by simpa using hd)
    · have heq' : ds ++ [d] = (before ++ .Def d' :: after) ++ [last] := by simpa using heq
      exact hds.proved before d' after (List.append_inj' heq' rfl).1
  cases d with
  | Adt d =>
    have hadt := validateAdt_spec h
    exact ⟨hproved (hadt.declared he hds.declared hinspect) (fun _ hd => by cases hd),
      (he.insertAdt hadt.fresh.1).extends hadt.leaves, hadt.leaves.freshId⟩
  | Def d =>
    have hdef := validateDef_spec h
    obtain ⟨checked, hcore, hleaves⟩ := hdef.leaves
    refine ⟨hproved (hdef.declared he hds.declared hinspect) (fun d' hd => ?_),
      (he.insertDef hcore).extends hleaves, hleaves.freshId⟩
    cases hd
    exact hdef.proved he hds.declared hinspect hfresh

theorem returns_inDefinition {α : Type} {name : String} {m : M α} {a : α}
    (h : Returns (inDefinition name m) e a e') : Returns m e a e' := by
  rw [Returns, inDefinition] at h
  rw [Returns]
  cases hm : m e with
  | error err e₁ =>
    rw [hm] at h
    cases h
  | ok b e₁ =>
    rw [hm] at h
    exact h

theorem returns_rejectSourceHole {hole : Option String}
    (h : Returns (rejectSourceHole hole) e u e') : hole = none ∧ e = e' := by
  cases hole with
  | none => exact ⟨rfl, (returns_pure.mp h).2⟩
  | some name => exact (returns_fail h).elim

/-- **The loop over a book.** -/
theorem checkDeclarations_run {rest : List (Declaration × Option String)}
    (hds : AcceptedBook gas ds) (he : e.Holds ds)
    (hinspect : ∀ p ∈ rest, ∀ t ∈ p.1.inputs, Inspected ⟨top, p.2⟩ t)
    (hfresh : top + 1 ≤ e.freshId) (h : Returns (checkDeclarations gas ds rest) e u e') :
    AcceptedBook gas (ds ++ rest.map (·.1)) ∧ e'.Holds (ds ++ rest.map (·.1)) := by
  induction rest generalizing ds e with
  | nil =>
    obtain ⟨-, rfl⟩ := returns_pure.mp h
    simpa using ⟨hds, he⟩
  | cons p rest ih =>
    obtain ⟨d, hole⟩ := p
    simp only [checkDeclarations, returns_bind, returns_modify] at h
    obtain ⟨-, _, rfl, _, e₁, hd, h⟩ := h
    obtain ⟨_, e₂, hvalidate, hhole⟩ := returns_bind.mp (returns_inDefinition hd)
    obtain ⟨rfl, rfl⟩ := returns_rejectSourceHole hhole
    obtain ⟨hstep, hholds, hle⟩ := validate_step (e := { e with fuel := 2000000 }) hds
      ⟨he.adts, he.defs, he.contracts⟩ (hinspect (d, none) (List.mem_cons_self ..)) hfresh hvalidate
    have hrun := ih hstep hholds (fun p hp => hinspect p (List.mem_cons_of_mem _ hp))
      (Nat.le_trans hfresh hle) h
    rwa [List.append_assoc] at hrun

/-- **The pass over the book** leaves an empty engine whose next number is new to every term. -/
theorem prepareBook_spec {pointers : Pointers} {display : Term → String} {book : Book}
    {prepared : Engine × List (Option String)}
    (h : prepareBook pointers display book = .ok prepared) :
    ∃ top, List.Forall₂ (fun d hole => ∀ t ∈ d.inputs, Inspected ⟨top, hole⟩ t) book.declarations
      prepared.2 ∧ prepared.1 = .empty pointers display (top + 1) := by
  obtain ⟨found, hfound, h⟩ := bind_eq_ok.mp h
  split at h
  · cases h
  · cases h
    exact ⟨found.1, (prepareDeclarations_spec hfound).2, rfl⟩

/-- When no law is open, every definition that is held has a body. -/
theorem body_of_openLaws (he : e.Holds ds) (h : openLaws e ds = []) {d : DefDecl}
    (hd : d ∈ definitions ds) : ∃ checked body d', e.defs d.name = some checked ∧
      checked.body = some body ∧ d' ∈ definitionsOf ds d.name ∧ d'.body = some body := by
  have hnamed : definitionsOf ds d.name ≠ [] := by
    rw [definitionsOf, Ne, List.filter_eq_nil_iff]
    exact fun hnone => hnone d hd (by simp)
  cases hdef : e.defs d.name with
  | none => exact absurd (he.no_def hdef) hnamed
  | some checked =>
    obtain ⟨d', hmem, hname, hcore, -⟩ := he.def_mem hdef
    have hbody : checked.body ≠ none := by
      intro hnone
      rw [openLaws, List.filter_eq_nil_iff] at h
      have hlisted : d.name ∈ ((definitions ds).map (·.name)).dedup.mergeSort := by
        rw [List.mem_mergeSort, List.mem_dedup]
        exact List.mem_map_of_mem hd
      exact h d.name hlisted (by simp [hdef, hnone])
    obtain ⟨body, hbody⟩ := Option.ne_none_iff_exists'.mp hbody
    refine ⟨checked, body, d', rfl, hbody, ?_, (DefDecl.body_of_core hcore).symm.trans hbody⟩
    exact List.mem_filter.mpr ⟨hmem, by simpa using hname⟩

end Run

/-! ## 5. The theorem -/

/-- **Acceptance is complete and closed.**  In an accepted book every name is declared once, a law
and its completion counting as one, every constructor name has one family, no inspected term has a
hole and no definition is unsafe or foreign.  Every definition was checked where it stands: its type
compares equal to the type of the law it completes, and the live names of its body are its own or
checked before.  At the end every name has a body of the book. -/
theorem check_book_accepts {gas : Nat} {pointers : Pointers} {display : Term → String}
    {book : Book} {checked : CheckedBook}
    (h : checkBook gas pointers display book = .ok checked) :
    Declared book.declarations ∧
      (∀ before d after, book.declarations = before ++ .Def d :: after → Proved gas before d) ∧
      checked.engine.Holds book.declarations ∧
      ∀ d ∈ definitions book.declarations, ∃ checkedDef body d',
        checked.engine.defs d.name = some checkedDef ∧ checkedDef.body = some body ∧
          d' ∈ definitionsOf book.declarations d.name ∧ d'.body = some body := by
  obtain ⟨prepared, hprepared, h⟩ := bind_eq_ok.mp h
  obtain ⟨r, hrun, h⟩ := bind_eq_ok.mp h
  obtain ⟨top, hfound, hengine⟩ := prepareBook_spec hprepared
  obtain ⟨hlength, hinspect⟩ := List.forall₂_iff_zip.mp hfound
  have hall := checkDeclarations_run (acceptedBook_nil gas)
    (hengine ▸ holds_empty pointers display (top + 1)) (fun p hp => hinspect hp)
    (hengine ▸ Nat.le_refl (top + 1)) (outcome_eq_ok.mp hrun)
  rw [List.nil_append, List.map_fst_zip (Nat.le_of_eq hlength)] at hall
  obtain ⟨hds, hholds⟩ := hall
  simp only at h
  split at h
  · rename_i hlaws
    cases h
    exact ⟨hds.declared, hds.proved, hholds, fun d hd =>
      body_of_openLaws hholds (List.isEmpty_iff.mp hlaws) hd⟩
  · cases h

/-! ### Three books -/

/-- A datatype without parameters and with constructors without fields. -/
def enumeration (name : String) (constructors : List String) : Declaration :=
  .Adt ⟨name, [], kind .Lone, constructors.map (⟨·, []⟩)⟩

/-- A definition without parameters. -/
def constant (name : String) (ty : Term) (body : Option Term) : DefDecl :=
  ⟨name, [], none, ty, body, false, false⟩

/-- `T` has `A` and `B`, and the law `f : T` is completed by `A`. -/
def completedBook : Book :=
  ⟨[enumeration "T" ["A", "B"], .Def (constant "f" (.Adt "T" [] []) none),
    .Def (constant "f" (.Adt "T" [] []) (some (.Ctr "A" [])))]⟩

/-- The body of `g` is `(λx. 1)(h)`, and no `h` is declared. -/
def discardingBook : Book :=
  ⟨[.Def (constant "g" .Qnt (some (.App (.Lam "x" 1 (.Qua .Lone)) (.Ref "h"))))]⟩

/-- What is left of `T`, to the empty type. -/
def absurdity (id : Nat) (excluded : List String) : Term :=
  .All .Lone "x" id (.Adt "T" [] excluded) (.Adt "E" [] [])

/-- The law takes `T` without `A` and `A`, its completion takes `T` without `A` and `B`. -/
def weakeningBook : Book :=
  ⟨[enumeration "T" ["A", "B"], enumeration "E" [],
    .Def (constant "f" (absurdity 1 ["A", "A"]) none),
    .Def (constant "f" (absurdity 2 ["A", "B"]) (some .Efq))]⟩

/-- Whether the book is accepted. -/
def accepts (gas : Nat) (book : Book) : Bool :=
  (checkBook gas .distinct (fun _ => "") book).toBool

/-- A book that is accepted has been checked. -/
theorem ok_of_accepts {gas : Nat} {book : Book} (h : accepts gas book = true) :
    ∃ checked, checkBook gas .distinct (fun _ => "") book = .ok checked := by
  rw [accepts] at h
  cases hchecked : checkBook gas .distinct (fun _ => "") book with
  | error err =>
    rw [hchecked] at h
    cases h
  | ok checked => exact ⟨checked, rfl⟩

/-- The completed law has a body. -/
theorem check_book_accepts_completed : Declared completedBook.declarations ∧
    (∀ before d after, completedBook.declarations = before ++ .Def d :: after →
      Proved 8 before d) ∧ ∃ checked,
      checkBook 8 .distinct (fun _ => "") completedBook = .ok checked ∧
        checked.engine.Holds completedBook.declarations := by
  have haccepts : accepts 8 completedBook = true := by decide +kernel
  obtain ⟨checked, h⟩ := ok_of_accepts haccepts
  obtain ⟨hdeclared, hproved, hholds, -⟩ := check_book_accepts h
  exact ⟨hdeclared, hproved, checked, h, hholds⟩

/-- **Two accepted books.**  A name that no declaration has stands in a body, as the argument of a
lambda that drops it; and a law about `T` without `A`, which still has `B`, is completed by a proof
about `T` without `A` and `B`, which is empty. -/
theorem check_book_accepts_more :
    ((∃ checked, checkBook 8 .distinct (fun _ => "") discardingBook = .ok checked) ∧
      definitions discardingBook.declarations =
        [constant "g" .Qnt (some (.App (.Lam "x" 1 (.Qua .Lone)) (.Ref "h")))] ∧
      "h" ∉ discardingBook.declarations.map (·.name)) ∧
    (∃ checked, checkBook 8 .distinct (fun _ => "") weakeningBook = .ok checked) ∧
      definitionsOf weakeningBook.declarations "f" =
        [constant "f" (absurdity 1 ["A", "A"]) none,
          constant "f" (absurdity 2 ["A", "B"]) (some .Efq)] ∧
      ∃ T ∈ datatypes weakeningBook.declarations, T.name = "T" ∧
        (T.retain ["A", "A"]).constructors.map (·.name) = ["B"] ∧
        (T.retain ["A", "B"]).constructors = [] := by
  have hdiscarding : accepts 8 discardingBook = true := by decide +kernel
  have hweakening : accepts 8 weakeningBook = true := by decide +kernel
  refine ⟨⟨ok_of_accepts hdiscarding, rfl, by decide⟩, ok_of_accepts hweakening, rfl, ?_⟩
  exact ⟨⟨"T", [], kind .Lone, [⟨"A", []⟩, ⟨"B", []⟩]⟩, .head _, rfl, rfl, rfl⟩

end TeamyBend.Kernel
