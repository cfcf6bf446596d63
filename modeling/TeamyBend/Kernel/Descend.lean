/-
# Structural descent

The guard of a self-call: `descend` compares an argument with a column of the defining equation,
and `inferReference` reads the arguments from left to right until one shrinks.

A column is a constructor pattern.  Give its variables any closed constructor trees: the pattern
then denotes a tree, and an argument denotes one as far as it is built from the same variables
and constructors under annotations and `let` aliases (`Denotes`).  What the guard accepts is a
lexicographic decrease of these trees (`self_call_decreases`).
-/
import TeamyBend.Kernel.Engine

namespace TeamyBend.Kernel

/-! ## 1. The guard -/

/-- `Engine::strip_descent_aliases`. -/
def stripDescentAliases : Nat → Term → M Term
  | 0, _ => exhausted
  | gas + 1, value => do
    step
    match value with
    | .Ann inner _ => stripDescentAliases gas inner
    | .Var name id =>
      match (← get).aliases id with
      | some inner => stripDescentAliases gas inner
      | none => return .Var name id
    | value => return value

/-- The loop of `descend_inner` over the fields of one constructor. -/
def descendFields (descend : Term → Term → M Ordering) :
    Ordering → List Term → List Term → M Ordering
  | order, x :: xs, y :: ys => do
    let field ← descend x y
    let order := if field = .eq then order else field
    if order = .gt then return order else descendFields descend order xs ys
  | order, _, _ => return order

/-- The comparison of `descend_inner` with a term that starts with the same constructor. -/
def descendSame (descend : Term → Term → M Ordering) (a : Term) (pn : String) (px : List Term) :
    M Ordering :=
  match a with
  | .Ctr an ax =>
    if an = pn ∧ ax.length = px.length then descendFields descend .eq ax px else return .gt
  | _ => return .gt

/-- The search of `descend_inner` for a field that is not greater. -/
def descendInto (descend : Term → M Ordering) : List Term → M Ordering
  | [] => return .gt
  | field :: fields => do
    if (← descend field) = .gt then descendInto descend fields else return .lt

/-- `Engine::descend`. -/
def descend : Nat → Quant → Term → Term → M Ordering
  | 0, _, _, _ => exhausted
  | gas + 1, quant, arg, column => charged do
    if quant = .None then return .eq
    else
      let a ← stripDescentAliases gas arg
      let p ← stripDescentAliases gas column
      match p with
      | .Var _ pi =>
        match a with
        | .Var _ ai => if ai = pi then return .eq else return .gt
        | _ => return .gt
      | .Ctr pn px =>
        let order ← descendSame (descend gas .Lone) a pn px
        if order = .gt then descendInto (descend gas .Lone a) px else return order
      | _ => return .gt

/-- `struct Lhs`. -/
structure Lhs where
  name : String
  equation : Term
  remaining : Nat
  quants : List Quant
  unsafe_ : Bool

/-- `Lhs::default`. -/
def Lhs.default : Lhs := ⟨"", .Ref "", 0, [], false⟩

/-- `Uses`: a variable without an entry is not used. -/
abbrev Uses := Nat → Quant

/-- `Uses::new`. -/
def Uses.new : Uses := fun _ => .None

/-- The loop of `infer_reference` over arguments, columns and quantities. -/
def descentOrder (gas : Nat) : Ordering → List Term → List Term → List Quant → M Ordering
  | order, arg :: args, col :: cols, quant :: quants => do
    if order ≠ .eq then return order
    else
      let order ← descend gas quant arg col
      descentOrder gas order args cols quants
  | order, _, _, _ => return order

/-- The self-call guard of `infer_reference`. -/
def guardSelfCall (gas : Nat) (lhs : Lhs) (name : String) (args : List Term) : M Unit := do
  if name = lhs.name ∧ lhs.unsafe_ = false then
    let (_, columns) := spine lhs.equation
    let order ← descentOrder gas .eq args columns lhs.quants
    if order = .lt then return ()
    else fail "recursive self-call must decrease structurally, left to right"
  else return ()

/-- `Engine::infer_reference`, on the name of the reference. -/
def inferReference (gas : Nat) (lhs : Lhs) (name : String) (demand : Quant) (args : List Term) :
    M (Term × Uses) := do
  let e ← get
  match e.adts name with
  | some adt =>
    if adt.parameters ≠ [] then fail "a parameterized datatype needs <...> arguments"
    else return (adt.kind, Uses.new)
  | none =>
    match e.defs name with
    | none => fail s!"undefined name {name}"
    | some definition =>
      if demand ≠ .None then
        guardSelfCall gas lhs name args
        if name ≠ lhs.name ∧ definition.body.isNone ∧ !e.foreignContracts name ∧
            !e.numericContracts name ∧ !e.opaqueContracts name then
          fail s!"unfilled law {name} cannot be used as live evidence"
        else return (definition.ty, Uses.new)
      else return (definition.ty, Uses.new)

/-! ## 2. What arguments and patterns denote -/

/-- A closed constructor tree. -/
inductive Tree where
  | node (name : String) (fields : List Tree)

namespace Tree

mutual

/-- The number of constructors of a tree. -/
def size : Tree → Nat
  | node _ fields => 1 + sizes fields

/-- The number of constructors of a list of trees. -/
def sizes : List Tree → Nat
  | [] => 0
  | t :: ts => size t + sizes ts

end

end Tree

mutual

/-- Under trees for the variables, a term denotes a tree: annotations are dropped and aliases
followed, and nothing is computed. -/
inductive Denotes (aliases : Nat → Option Term) (σ : Nat → Tree) : Term → Tree → Prop where
  | ann {value ty : Term} {t : Tree} (h : Denotes aliases σ value t) :
      Denotes aliases σ (.Ann value ty) t
  | through {name : String} {id : Nat} {inner : Term} {t : Tree} (hid : aliases id = some inner)
      (h : Denotes aliases σ inner t) : Denotes aliases σ (.Var name id) t
  | var {name : String} {id : Nat} (hid : aliases id = none) :
      Denotes aliases σ (.Var name id) (σ id)
  | ctr {name : String} {args : List Term} {ts : List Tree} (h : DenotesArgs aliases σ args ts) :
      Denotes aliases σ (.Ctr name args) (.node name ts)

/-- The arguments of a constructor denote a list of trees. -/
inductive DenotesArgs (aliases : Nat → Option Term) (σ : Nat → Tree) :
    List Term → List Tree → Prop where
  | nil : DenotesArgs aliases σ [] []
  | cons {a : Term} {args : List Term} {t : Tree} {ts : List Tree} (h : Denotes aliases σ a t)
      (hs : DenotesArgs aliases σ args ts) : DenotesArgs aliases σ (a :: args) (t :: ts)

end

section Denotes

variable {aliases : Nat → Option Term} {σ : Nat → Tree}

mutual

/-- A term denotes one tree at most. -/
theorem Denotes.unique {a : Term} {t u : Tree} :
    Denotes aliases σ a t → Denotes aliases σ a u → t = u
  | .ann h, .ann h' => h.unique h'
  | .through hid h, .through hid' h' => by
    obtain rfl : _ = _ := Option.some.inj (hid.symm.trans hid')
    exact h.unique h'
  | .through hid _, .var hid' => by simp [hid] at hid'
  | .var hid, .through hid' _ => by simp [hid] at hid'
  | .var _, .var _ => rfl
  | .ctr h, .ctr h' => by rw [h.unique h']

theorem DenotesArgs.unique {args : List Term} {ts us : List Tree} :
    DenotesArgs aliases σ args ts → DenotesArgs aliases σ args us → ts = us
  | .nil, .nil => rfl
  | .cons h hs, .cons h' hs' => by rw [h.unique h', hs.unique hs']

end

/-- A constructor pattern: constructors around variables that are no aliases. -/
inductive IsPattern (aliases : Nat → Option Term) : Term → Prop where
  | var {name : String} {id : Nat} (hid : aliases id = none) : IsPattern aliases (.Var name id)
  | ctr {name : String} {args : List Term} (h : ∀ a ∈ args, IsPattern aliases a) :
      IsPattern aliases (.Ctr name args)

/-- A pattern denotes a tree whatever its variables stand for. -/
theorem IsPattern.denotes {p : Term} (hp : IsPattern aliases p) (σ : Nat → Tree) :
    ∃ t, Denotes aliases σ p t := by
  induction hp with
  | var hid => exact ⟨_, .var hid⟩
  | @ctr name args _ ih =>
    have hargs : ∃ ts, DenotesArgs aliases σ args ts := by
      clear * - ih
      induction args with
      | nil => exact ⟨[], .nil⟩
      | cons a args ihs =>
        obtain ⟨t, ht⟩ := ih a (List.mem_cons_self ..)
        obtain ⟨ts, hts⟩ := ihs fun b hb => ih b (List.mem_cons_of_mem _ hb)
        exact ⟨t :: ts, .cons ht hts⟩
    obtain ⟨ts, hts⟩ := hargs
    exact ⟨_, .ctr hts⟩

/-- The size of what a term denotes, where it denotes a tree. -/
noncomputable def sizeOf? (aliases : Nat → Option Term) (σ : Nat → Tree) (a : Term) : Option Nat :=
  open Classical in if h : ∃ t, Denotes aliases σ a t then some h.choose.size else none

theorem Denotes.sizeOf? {a : Term} {t : Tree} (h : Denotes aliases σ a t) :
    sizeOf? aliases σ a = some t.size := by
  have hex : ∃ t, Denotes aliases σ a t := ⟨t, h⟩
  rw [Kernel.sizeOf?, dif_pos hex, hex.choose_spec.unique h]

end Denotes

/-! ## 3. What `descend` finds -/

/-- What an answer about an argument and a column says of the trees they denote. -/
def Descends (aliases : Nat → Option Term) (a p : Term) : Ordering → Prop
  | .eq => ∀ σ t, Denotes aliases σ p t → Denotes aliases σ a t
  | .lt => ∀ σ t, Denotes aliases σ p t → ∃ u, Denotes aliases σ a u ∧ u.size < t.size
  | .gt => True

/-- What an answer about the fields of one constructor says. -/
def DescendsArgs (aliases : Nat → Option Term) (as ps : List Term) : Ordering → Prop
  | .eq => ∀ σ ts, DenotesArgs aliases σ ps ts → DenotesArgs aliases σ as ts
  | .lt => ∀ σ ts, DenotesArgs aliases σ ps ts →
      ∃ us, DenotesArgs aliases σ as us ∧ Tree.sizes us < Tree.sizes ts
  | .gt => True

/-- A field that is not greater denotes a tree that is not larger. -/
theorem Descends.le {aliases : Nat → Option Term} {a p : Term} {o : Ordering}
    (h : Descends aliases a p o) (ho : o ≠ .gt) {σ : Nat → Tree} {t : Tree}
    (ht : Denotes aliases σ p t) : ∃ u, Denotes aliases σ a u ∧ u.size ≤ t.size := by
  cases o with
  | eq => exact ⟨t, h σ t ht, Nat.le_refl _⟩
  | lt =>
    obtain ⟨u, hu, hlt⟩ := h σ t ht
    exact ⟨u, hu, Nat.le_of_lt hlt⟩
  | gt => exact absurd rfl ho

theorem DescendsArgs.le {aliases : Nat → Option Term} {as ps : List Term} {o : Ordering}
    (h : DescendsArgs aliases as ps o) (ho : o ≠ .gt) {σ : Nat → Tree} {ts : List Tree}
    (ht : DenotesArgs aliases σ ps ts) :
    ∃ us, DenotesArgs aliases σ as us ∧ Tree.sizes us ≤ Tree.sizes ts := by
  cases o with
  | eq => exact ⟨ts, h σ ts ht, Nat.le_refl _⟩
  | lt =>
    obtain ⟨us, hus, hlt⟩ := h σ ts ht
    exact ⟨us, hus, Nat.le_of_lt hlt⟩
  | gt => exact absurd rfl ho

/-- A field of a constructor is smaller than the whole. -/
theorem DenotesArgs.mem {aliases : Nat → Option Term} {σ : Nat → Tree} {args : List Term}
    {ts : List Tree} (h : DenotesArgs aliases σ args ts) {a : Term} (ha : a ∈ args) :
    ∃ t, Denotes aliases σ a t ∧ t.size ≤ Tree.sizes ts := by
  induction args generalizing ts with
  | nil => simp at ha
  | cons b args ih =>
    obtain _ | ⟨hb, hs⟩ := h
    rcases List.mem_cons.mp ha with rfl | ha
    · exact ⟨_, hb, by simp [Tree.sizes]⟩
    · obtain ⟨t, ht, hle⟩ := ih hs ha
      exact ⟨t, ht, by simp [Tree.sizes]; omega⟩

section Descend

variable {e e' : Engine}

/-- Stripping leaves aliases alone and does not change what a term denotes. -/
theorem stripDescentAliases_spec {gas : Nat} {value v : Term}
    (h : Returns (stripDescentAliases gas value) e v e') :
    e'.aliases = e.aliases ∧
      ∀ σ t, Denotes e.aliases σ v t ↔ Denotes e.aliases σ value t := by
  induction gas generalizing value e with
  | zero => simp [stripDescentAliases] at h
  | succ gas ih =>
    simp only [stripDescentAliases, returns_bind, returns_step] at h
    obtain ⟨-, _, ⟨-, rfl⟩, h⟩ := h
    split at h
    · obtain ⟨haliases, hv⟩ := ih h
      refine ⟨haliases, fun σ t => (hv σ t).trans ⟨.ann, ?_⟩⟩
      rintro ⟨h⟩
      exact h
    · simp only [returns_bind, returns_get] at h
      obtain ⟨_, _, ⟨rfl, rfl⟩, h⟩ := h
      split at h
      · rename_i inner hid
        obtain ⟨haliases, hv⟩ := ih h
        refine ⟨haliases, fun σ t => (hv σ t).trans ⟨.through hid, ?_⟩⟩
        rintro (_ | ⟨hid', h⟩ | hnone)
        · obtain rfl := Option.some.inj (hid.symm.trans hid')
          exact h
        · exact absurd (hid.symm.trans hnone) (by simp)
      · obtain ⟨rfl, rfl⟩ := returns_pure.mp h
        exact ⟨rfl, fun _ _ => Iff.rfl⟩
    · obtain ⟨rfl, rfl⟩ := returns_pure.mp h
      exact ⟨rfl, fun _ _ => Iff.rfl⟩

/-- How the answers for one field and for the rest combine. -/
theorem DescendsArgs.cons {aliases : Nat → Option Term} {x y : Term} {xs ys : List Term}
    {o os : Ordering} (h : Descends aliases x y o) (hs : DescendsArgs aliases xs ys os)
    (ho : o ≠ .gt) (hos : os ≠ .gt) :
    DescendsArgs aliases (x :: xs) (y :: ys) (if os = .eq then o else os) := by
  cases os with
  | gt => exact absurd rfl hos
  | lt =>
    rintro σ _ (_ | ⟨ht, hts⟩)
    obtain ⟨u, hu, hle⟩ := h.le ho ht
    obtain ⟨us, hus, hlt⟩ := hs σ _ hts
    exact ⟨u :: us, .cons hu hus, by simp [Tree.sizes]; omega⟩
  | eq =>
    cases o with
    | gt => exact absurd rfl ho
    | lt =>
      rintro σ _ (_ | ⟨ht, hts⟩)
      obtain ⟨u, hu, hlt⟩ := h σ _ ht
      exact ⟨_, .cons hu (hs σ _ hts), by simp [Tree.sizes]; omega⟩
    | eq =>
      rintro σ _ (_ | ⟨ht, hts⟩)
      exact .cons (h σ _ ht) (hs σ _ hts)

/-- What is so of the fields is so of the constructor around them. -/
theorem Descends.ctr {al : Nat → Option Term} {name : String} {as ps : List Term} {os : Ordering}
    (h : DescendsArgs al as ps os) :
    Descends al (.Ctr name as) (.Ctr name ps) (if os = .eq then .eq else os) := by
  cases os with
  | gt => trivial
  | eq =>
    rintro σ _ (_ | _ | _ | hts)
    exact .ctr (h σ _ hts)
  | lt =>
    rintro σ _ (_ | _ | _ | hts)
    obtain ⟨us, hus, hlt⟩ := h σ _ hts
    exact ⟨_, .ctr hus, by simp [Tree.size]; omega⟩

/-- The loop over the fields answers for the fields that are left, unless it was decided
before. -/
theorem descendFields_spec {f : Term → Term → M Ordering} {al : Nat → Option Term}
    (hf : ∀ {x y : Term} {e e' : Engine} {o : Ordering}, e.aliases = al →
      Returns (f x y) e o e' → e'.aliases = al ∧ Descends al x y o)
    {xs ys : List Term} (hlen : xs.length = ys.length) {order o : Ordering}
    (he : e.aliases = al) (horder : order ≠ .gt)
    (h : Returns (descendFields f order xs ys) e o e') :
    e'.aliases = al ∧ (o ≠ .gt → ∃ os, DescendsArgs al xs ys os ∧ os ≠ .gt ∧
      o = if os = .eq then order else os) := by
  induction xs generalizing ys order e with
  | nil =>
    obtain rfl : ys = [] := List.length_eq_zero_iff.mp hlen.symm
    obtain ⟨rfl, rfl⟩ := returns_pure.mp h
    exact ⟨he, fun _ => ⟨.eq, fun σ ts hts => hts, by simp, rfl⟩⟩
  | cons x xs ih =>
    obtain ⟨y, ys, rfl⟩ := List.exists_cons_of_length_eq_add_one hlen.symm
    simp only [descendFields, returns_bind, returns_ite, returns_pure] at h
    obtain ⟨field, e₁, hfield, h⟩ := h
    obtain ⟨he₁, hdescends⟩ := hf he hfield
    by_cases hgt : (if field = .eq then order else field) = .gt
    · rw [if_pos hgt] at h
      obtain ⟨rfl, rfl⟩ := h
      exact ⟨he₁, fun ho => absurd hgt ho⟩
    · rw [if_neg hgt] at h
      have hfieldgt : field ≠ .gt := by
        rintro rfl
        simp at hgt
      obtain ⟨he', hrest⟩ := ih (Nat.succ.inj hlen) he₁ hgt h
      refine ⟨he', fun ho => ?_⟩
      obtain ⟨os, hos, hosgt, rfl⟩ := hrest ho
      refine ⟨_, .cons hdescends hos hfieldgt hosgt, ?_, ?_⟩
      · split <;> assumption
      · cases os <;> cases field <;> simp_all

/-- The fields one by one, where both are the same constructor. -/
theorem descendSame_spec {f : Term → Term → M Ordering} {al : Nat → Option Term}
    (hf : ∀ {x y : Term} {e e' : Engine} {o : Ordering}, e.aliases = al →
      Returns (f x y) e o e' → e'.aliases = al ∧ Descends al x y o)
    {a : Term} {pn : String} {px : List Term} {o : Ordering} (he : e.aliases = al)
    (h : Returns (descendSame f a pn px) e o e') :
    e'.aliases = al ∧ (o ≠ .gt → Descends al a (.Ctr pn px) o) := by
  unfold descendSame at h
  split at h
  · simp only [returns_ite, returns_pure] at h
    split at h
    · rename_i hsame
      obtain ⟨rfl, hlen⟩ := hsame
      obtain ⟨he', hlist⟩ := descendFields_spec hf hlen he (by simp) h
      refine ⟨he', fun hgt => ?_⟩
      obtain ⟨os, hos, -, rfl⟩ := hlist hgt
      exact .ctr hos
    · obtain ⟨rfl, rfl⟩ := h
      exact ⟨he, fun hgt => absurd rfl hgt⟩
  · obtain ⟨rfl, rfl⟩ := returns_pure.mp h
    exact ⟨he, fun hgt => absurd rfl hgt⟩

/-- The search answers that some field is not smaller than the argument. -/
theorem descendInto_spec {f : Term → M Ordering} {al : Nat → Option Term} {a : Term}
    (hf : ∀ {y : Term} {e e' : Engine} {o : Ordering}, e.aliases = al →
      Returns (f y) e o e' → e'.aliases = al ∧ Descends al a y o)
    {fields : List Term} {o : Ordering} (he : e.aliases = al)
    (h : Returns (descendInto f fields) e o e') :
    e'.aliases = al ∧ (o = .gt ∨ o = .lt ∧ ∃ y ∈ fields, ∃ o', o' ≠ .gt ∧ Descends al a y o') := by
  induction fields generalizing e with
  | nil =>
    obtain ⟨rfl, rfl⟩ := returns_pure.mp h
    exact ⟨he, .inl rfl⟩
  | cons y fields ih =>
    simp only [descendInto, returns_bind, returns_ite, returns_pure] at h
    obtain ⟨o', e₁, ho', h⟩ := h
    obtain ⟨he₁, hdescends⟩ := hf he ho'
    split at h
    · obtain ⟨he', hrest⟩ := ih he₁ h
      refine ⟨he', hrest.imp id ?_⟩
      rintro ⟨hlt, y', hy', hfound⟩
      exact ⟨hlt, y', List.mem_cons_of_mem _ hy', hfound⟩
    · obtain ⟨rfl, rfl⟩ := h
      exact ⟨he₁, .inr ⟨rfl, y, List.mem_cons_self .., o', ‹_›, hdescends⟩⟩

/-- **What `descend` answers is so of the trees.** -/
theorem descend_spec {gas : Nat} {quant : Quant} {a p : Term} {o : Ordering}
    (hq : quant ≠ .None) (h : Returns (descend gas quant a p) e o e') :
    e'.aliases = e.aliases ∧ Descends e.aliases a p o := by
  induction gas generalizing quant a p o e e' with
  | zero => simp [descend] at h
  | succ gas ih =>
    simp only [descend, returns_charged, hq, if_false, returns_bind] at h
    obtain ⟨-, -, e₁, ⟨a', ea, ha, p', ep, hp, h⟩, rfl⟩ := h
    obtain ⟨hea, ha⟩ := stripDescentAliases_spec ha
    obtain ⟨hep, hp⟩ := stripDescentAliases_spec hp
    simp only at hea hep ha hp
    rw [hea] at hep hp
    have hrec : ∀ {x y : Term} {e₀ e₀' : Engine} {o : Ordering}, e₀.aliases = e.aliases →
        Returns (descend gas .Lone x y) e₀ o e₀' →
        e₀'.aliases = e.aliases ∧ Descends e.aliases x y o := by
      intro x y e₀ e₀' o heq hret
      rw [← heq]
      exact ih (by simp) hret
    -- what is known of the stripped terms holds of the given ones
    have hstripped : Descends e.aliases a' p' o → Descends e.aliases a p o := by
      intro hd
      cases o with
      | eq => exact fun σ t ht => (ha σ t).mp (hd σ t ((hp σ t).mpr ht))
      | lt =>
        intro σ t ht
        obtain ⟨u, hu, hlt⟩ := hd σ t ((hp σ t).mpr ht)
        exact ⟨u, (ha σ u).mp hu, hlt⟩
      | gt => trivial
    split at h
    · -- a variable is only equal to itself
      split at h
      · simp only [returns_ite, returns_pure] at h
        split at h
        · obtain ⟨rfl, rfl⟩ := h
          subst ‹_ = _›
          refine ⟨hep, hstripped fun σ t ht => ?_⟩
          cases ht with
          | through hid h => exact .through hid h
          | var hid => exact .var hid
        · obtain ⟨rfl, rfl⟩ := h
          exact ⟨hep, hstripped trivial⟩
      · obtain ⟨rfl, rfl⟩ := returns_pure.mp h
        exact ⟨hep, hstripped trivial⟩
    · obtain ⟨order, eo, horder, h⟩ := returns_bind.mp h
      have hfields := descendSame_spec hrec hep horder
      rw [returns_ite] at h
      split at h
      · -- below the constructor
        obtain ⟨he', hinto⟩ := descendInto_spec hrec hfields.1 h
        refine ⟨he', hstripped ?_⟩
        rcases hinto with rfl | ⟨rfl, y, hy, o', hgt, hd⟩
        · trivial
        · rintro σ _ (_ | _ | _ | hts)
          obtain ⟨t, ht, hle⟩ := hts.mem hy
          obtain ⟨u, hu, hle'⟩ := hd.le hgt ht
          exact ⟨u, hu, by simp [Tree.size]; omega⟩
      · obtain ⟨rfl, rfl⟩ := returns_pure.mp h
        exact ⟨hfields.1, hstripped (hfields.2 ‹_›)⟩
    · obtain ⟨rfl, rfl⟩ := returns_pure.mp h
      exact ⟨hep, hstripped trivial⟩

end Descend

/-! ## 4. Accepted self-calls decrease -/

/-- The arguments with their columns, without those that are erased. -/
def livePairs (args cols : List Term) (quants : List Quant) : List (Term × Term) :=
  (((args.zip cols).zip quants).filter fun c => c.2 ≠ .None).map Prod.fst

/-- The sizes of the arguments that are not erased. -/
noncomputable def argumentSizes (aliases : Nat → Option Term) (σ : Nat → Tree)
    (args cols : List Term) (quants : List Quant) : List (Option Nat) :=
  (livePairs args cols quants).map fun c => sizeOf? aliases σ c.1

/-- The sizes of the corresponding columns. -/
noncomputable def columnSizes (aliases : Nat → Option Term) (σ : Nat → Tree)
    (args cols : List Term) (quants : List Quant) : List (Option Nat) :=
  (livePairs args cols quants).map fun c => sizeOf? aliases σ c.2

/-- Both sizes are known, and the first is smaller. -/
def SizeLt (m n : Option Nat) : Prop := ∃ i j, m = some i ∧ n = some j ∧ i < j

theorem livePairs_erased (a p : Term) (args cols : List Term) (quants : List Quant) :
    livePairs (a :: args) (p :: cols) (.None :: quants) = livePairs args cols quants := by
  simp [livePairs]

theorem livePairs_live {q : Quant} (hq : q ≠ .None) (a p : Term) (args cols : List Term)
    (quants : List Quant) :
    livePairs (a :: args) (p :: cols) (q :: quants) = (a, p) :: livePairs args cols quants := by
  simp [livePairs, hq]

/-- An erased column is equal to everything. -/
theorem descend_erased {gas : Nat} {a p : Term} {e e' : Engine} {o : Ordering}
    (h : Returns (descend gas .None a p) e o e') : e'.aliases = e.aliases ∧ o = .eq := by
  cases gas with
  | zero => simp [descend] at h
  | succ gas =>
    simp only [descend, returns_charged, if_true, returns_pure] at h
    obtain ⟨-, -, _, ⟨rfl, rfl⟩, rfl⟩ := h
    exact ⟨rfl, rfl⟩

/-- **The loop over arguments and columns answers `lt` only for a lexicographic decrease.** -/
theorem descentOrder_spec {gas : Nat} {e e' : Engine} {args cols : List Term}
    {quants : List Quant} (hcols : ∀ c ∈ cols, IsPattern e.aliases c)
    (h : Returns (descentOrder gas .eq args cols quants) e .lt e') (σ : Nat → Tree) :
    List.Lex SizeLt (argumentSizes e.aliases σ args cols quants)
      (columnSizes e.aliases σ args cols quants) := by
  induction args generalizing cols quants e with
  | nil => simp [descentOrder] at h
  | cons a args ih =>
    rcases cols with _ | ⟨p, cols⟩
    · simp [descentOrder] at h
    rcases quants with _ | ⟨q, quants⟩
    · simp [descentOrder] at h
    simp only [descentOrder, ne_eq, not_true_eq_false, if_false, returns_bind] at h
    obtain ⟨o, e₁, hdescend, h⟩ := h
    have hrest : ∀ c ∈ cols, IsPattern e.aliases c := fun c hc =>
      hcols c (List.mem_cons_of_mem _ hc)
    simp only [argumentSizes, columnSizes] at ih ⊢
    by_cases hq : q = .None
    · subst hq
      obtain ⟨he₁, rfl⟩ := descend_erased hdescend
      rw [livePairs_erased, ← he₁]
      exact ih (he₁ ▸ hrest) h
    · obtain ⟨he₁, hd⟩ := descend_spec hq hdescend
      obtain ⟨t, ht⟩ := (hcols p (List.mem_cons_self ..)).denotes σ
      rw [livePairs_live hq, List.map_cons, List.map_cons]
      cases o with
      | eq =>
        rw [(hd σ t ht).sizeOf?, ht.sizeOf?]
        have htail := ih (he₁ ▸ hrest) h
        rw [he₁] at htail
        exact .cons htail
      | lt =>
        obtain ⟨u, hu, hlt⟩ := hd σ t ht
        rw [hu.sizeOf?, ht.sizeOf?]
        exact .rel ⟨_, _, rfl, rfl, hlt⟩
      | gt =>
        -- the loop stops, and its answer is not `lt`
        rcases args with _ | ⟨b, args⟩ <;> rcases cols with _ | ⟨c, cols⟩ <;>
          rcases quants with _ | ⟨q', quants⟩ <;> simp [descentOrder] at h

/-- **Accepted self-recursion is well-founded.**  A live self-call of a definition that is not
unsafe, where the columns of the equation are constructor patterns, passes a lexicographically
smaller tuple, whatever trees the variables of the patterns stand for.  On columns that are not
erased `descend` answers `eq` only for equal trees and `lt` only for a smaller one. -/
theorem self_call_decreases :
    (∀ (gas : Nat) (lhs : Lhs) (name : String) (demand : Quant) (args : List Term)
      (e e' : Engine) (r : Term × Uses), e.adts name = none → name = lhs.name →
      lhs.unsafe_ = false → demand ≠ .None →
      (∀ c ∈ (spine lhs.equation).2, IsPattern e.aliases c) →
      Returns (inferReference gas lhs name demand args) e r e' →
      ∀ σ, List.Lex SizeLt (argumentSizes e.aliases σ args (spine lhs.equation).2 lhs.quants)
        (columnSizes e.aliases σ args (spine lhs.equation).2 lhs.quants)) ∧
    ∀ (gas : Nat) (quant : Quant) (arg column : Term) (e e' : Engine) (o : Ordering),
      quant ≠ .None → Returns (descend gas quant arg column) e o e' →
      ∀ σ t, Denotes e.aliases σ column t →
        (o = .eq → Denotes e.aliases σ arg t) ∧
        (o = .lt → ∃ u, Denotes e.aliases σ arg u ∧ u.size < t.size) := by
  refine ⟨?_, ?_⟩
  · intro gas lhs name demand args e e' r hadts hname hsafe hdemand hpattern h
    simp only [inferReference, returns_bind, returns_get] at h
    obtain ⟨_, _, ⟨rfl, rfl⟩, h⟩ := h
    simp only [hadts] at h
    split at h
    · simp at h
    · simp only [hdemand, ne_eq, not_false_eq_true, if_true, returns_bind, guardSelfCall, hname,
        hsafe, and_self, returns_ite, returns_pure, returns_fail] at h
      obtain ⟨-, _, ⟨o, e₁, horder, hlt⟩, -⟩ := h
      obtain ⟨rfl, -⟩ : o = .lt ∧ _ := by simpa using hlt
      exact descentOrder_spec hpattern horder
  · intro gas quant arg column e e' o hq h σ t ht
    obtain ⟨-, hd⟩ := descend_spec hq h
    refine ⟨?_, ?_⟩
    · rintro rfl
      exact hd σ t ht
    · rintro rfl
      exact hd σ t ht

/-! ### One definition -/

/-- An engine that knows one recursive definition `f`. -/
def recursiveEngine : Engine where
  defs name := if name = "f" then some ⟨"f", [], none, .Qnt, none, false, false⟩ else none
  adts _ := none
  named := by simp
  aliases _ := none
  foreignContracts _ := false
  numericContracts _ := false
  opaqueContracts _ := false
  freshId := 0
  fuel := 10
  depth := 0
  pointers := .distinct
  display _ := ""

/-- The equation `f(S{x})`, where the call `f(x)` decreases. -/
theorem self_call_decreases_successor :
    List.Lex SizeLt
        (argumentSizes recursiveEngine.aliases (fun _ => .node "Z" []) [.Var "x" 0]
          [.Ctr "S" [.Var "x" 0]] [.Lone])
        (columnSizes recursiveEngine.aliases (fun _ => .node "Z" []) [.Var "x" 0]
          [.Ctr "S" [.Var "x" 0]] [.Lone]) ∧
      ∃ u, Denotes recursiveEngine.aliases (fun _ => .node "Z" []) (.Var "x" 0) u ∧
        u.size < (Tree.node "S" [.node "Z" []]).size := by
  have hx : IsPattern recursiveEngine.aliases (.Var "x" 0) := .var rfl
  have hinfer : (result (inferReference 5
      ⟨"f", .App (.Ref "f") (.Ctr "S" [.Var "x" 0]), 1, [.Lone], false⟩ "f" .Lone [.Var "x" 0])
      recursiveEngine).map (fun _ => ()) = some () := by decide +kernel
  have horder : (result (descend 5 .Lone (.Var "x" 0) (.Ctr "S" [.Var "x" 0]))
      recursiveEngine).map id = some .lt := by decide +kernel
  obtain ⟨_, _, hguard, -⟩ := returns_of_result hinfer
  obtain ⟨_, _, hdescend, rfl⟩ := returns_of_result horder
  refine ⟨self_call_decreases.1 5 _ "f" .Lone [.Var "x" 0] recursiveEngine _ _ rfl rfl rfl
    (by simp) ?_ hguard _, ?_⟩
  · intro c hc
    obtain rfl : c = .Ctr "S" [.Var "x" 0] := by simpa [spine, spineGo] using hc
    exact .ctr (by simpa using hx)
  · exact (self_call_decreases.2 5 .Lone _ _ recursiveEngine _ _ (by simp) hdescend _ _
      (.ctr (.cons (.var rfl) .nil))).2 rfl

/-- The two gates: the self-call `f(x)` of an unsafe `f(x)` is accepted, and in an erased column
any two trees count as equal. -/
theorem unsafe_self_call_repeats :
    (∃ r e', Returns
        (inferReference 5 ⟨"f", .App (.Ref "f") (.Var "x" 0), 1, [.Lone], true⟩ "f" .Lone
          [.Var "x" 0]) recursiveEngine r e' ∧
      (∀ c ∈ (spine (.App (.Ref "f") (.Var "x" 0))).2, IsPattern recursiveEngine.aliases c) ∧
      ¬List.Lex SizeLt
        (argumentSizes recursiveEngine.aliases (fun _ => .node "Z" []) [.Var "x" 0]
          (spine (.App (.Ref "f") (.Var "x" 0))).2 [.Lone])
        (columnSizes recursiveEngine.aliases (fun _ => .node "Z" []) [.Var "x" 0]
          (spine (.App (.Ref "f") (.Var "x" 0))).2 [.Lone])) ∧
    ∃ e', Returns (descend 5 .None (.Ctr "A" []) (.Ctr "B" [])) recursiveEngine .eq e' ∧
      Denotes recursiveEngine.aliases (fun _ => .node "Z" []) (.Ctr "B" []) (.node "B" []) ∧
      ¬Denotes recursiveEngine.aliases (fun _ => .node "Z" []) (.Ctr "A" []) (.node "B" []) := by
  refine ⟨⟨(.Qnt, Uses.new), recursiveEngine, ?_, ?_, ?_⟩, { recursiveEngine with fuel := 9 }, ?_,
    .ctr .nil, ?_⟩
  · simp [inferReference, guardSelfCall, recursiveEngine]
  · intro c hc
    obtain rfl : c = .Var "x" 0 := by simpa [spine, spineGo] using hc
    exact .var rfl
  · have hsize : sizeOf? recursiveEngine.aliases (fun _ => .node "Z" []) (.Var "x" 0) = some 1 :=
      (Denotes.var rfl).sizeOf?
    simp only [argumentSizes, columnSizes, livePairs, spine, spineGo, List.zip_cons_cons,
      List.zip_nil_left, ne_eq, reduceCtorEq, not_false_eq_true, decide_true, List.filter_cons,
      List.filter_nil, if_true, List.map_cons, List.map_nil, hsize]
    rintro (_ | ⟨i, j, hi, hj, hlt⟩ | hnil)
    · simp only [Option.some.injEq] at hi hj
      omega
    · cases hnil
  · simp [descend, recursiveEngine]
  · intro h
    simpa using h.unique (.ctr .nil)

end TeamyBend.Kernel
