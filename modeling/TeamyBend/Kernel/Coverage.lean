/-
# Coverage of matches

A match is a tree of `Mat` nodes with an ending, and the checker never looks at it as a whole: every
node removes its constructor from the type, and the next node reads what is left from that type.

`check_covers` follows the residual types down the tree.  The arms of an accepted tree name distinct
constructors of the remaining ones, and every remaining constructor has an arm or is still in the
type at which the ending was checked.  An ending `Efq` is accepted only when nothing is left or when
a live binder has an empty datatype, so in any other context it is never selected
(`match_coverage`).  An arm may be `Efq` itself, at a field of an empty type.
-/
import TeamyBend.Kernel.Keeps
import TeamyBend.Kernel.Head
import Mathlib.Data.List.Nodup

namespace TeamyBend.Kernel

/-! ## 1. Trees -/

/-- The arms of a tree. -/
def arms : Term → List (String × Term)
  | .Mat c arm fallback => (c, arm) :: arms fallback
  | _ => []

/-- The term that ends a tree. -/
def ending : Term → Term
  | .Mat _ _ fallback => ending fallback
  | t => t

/-- The constructors that have an arm. -/
def armNames (tree : Term) : List String := (arms tree).map Prod.fst

@[simp] theorem armNames_mat (c : String) (arm fallback : Term) :
    armNames (.Mat c arm fallback) = c :: armNames fallback := rfl

/-- **Induction over trees.** -/
theorem tree_induct {motive : Term → Prop}
    (mat : ∀ c arm fallback, motive fallback → motive (.Mat c arm fallback))
    (last : ∀ t, arms t = [] → ending t = t → motive t) (t : Term) : motive t := by
  induction t with
  | Mat c arm fallback _ ih => exact mat c arm fallback ih
  | _ => exact last _ rfl rfl

/-! ## 2. What a tree does with a constructor -/

/-- The tree hands the fields of a constructor to this arm, step by step and in `consume`. -/
structure Takes (tree : Term) (c : String) (args : List Term) (arm : Term) : Prop where
  steps : Steps (.App tree (.Ctr c args)) (apps arm args)
  consumes : ∀ gas n residual e r e',
    Returns (consume (whnf gas) n tree (.Ctr c args) residual) e r e' →
      ∃ v e₁ e₂, r = some v ∧ Returns (whnf gas (apply arm args)) e₁ v e₂

/-- The tree hands a constructor to its ending, step by step and in `consume`. -/
structure Falls (tree : Term) (c : String) (args : List Term) : Prop where
  steps : Steps (.App tree (.Ctr c args)) (.App (ending tree) (.Ctr c args))
  consumes : ∀ gas n residual e r e',
    Returns (consume (whnf gas) n tree (.Ctr c args) residual) e r e' →
      ∃ m residual' e₁, Returns (consume (whnf gas) m (ending tree) (.Ctr c args) residual') e₁ r e'

/-- A term whose head needs no reduction. -/
def isCanonical : Term → Bool
  | .Typ _ | .Qnt | .Qua _ | .All .. | .Lam .. | .Adt .. | .Ctr .. | .Mat .. | .Efq | .Eql ..
  | .Rfl | .Hole _ => true
  | _ => false

theorem whnfTurn_canonical (whnf : Term → M Term) (gas : Nat) {t : Term} (h : isCanonical t) :
    whnfTurn whnf gas t = return .Break t := by
  cases t <;> first | rfl | cases h

/-- A canonical term is its own weak head normal form. -/
theorem whnf_canonical {gas : Nat} {t v : Term} {e e' : Engine} (h : isCanonical t)
    (hrun : Returns (whnf gas t) e v e') : v = t := by
  cases gas with
  | zero => exact (returns_exhausted hrun).elim
  | succ gas =>
    rw [whnf, returns_charged] at hrun
    obtain ⟨-, -, e₁, hrun, -⟩ := hrun
    cases gas with
    | zero => exact (returns_exhausted hrun).elim
    | succ gas =>
      rw [whnfInner, whnfTurn_canonical _ _ h, returns_bind] at hrun
      obtain ⟨flow, e₂, hflow, hrun⟩ := hrun
      obtain ⟨rfl, -⟩ := returns_pure.mp hflow
      exact (returns_pure.mp hrun).1.symm

/-- A canonical term is reduced in one step. -/
theorem returns_whnf_canonical {gas : Nat} {t : Term} {e : Engine} (h : isCanonical t)
    (hfuel : e.fuel ≠ 0) (hdepth : e.depth < 128) :
    Returns (whnf (gas + 2) t) e t { e with fuel := e.fuel - 1 } := by
  rw [whnf, returns_charged]
  refine ⟨hfuel, hdepth, { e with fuel := e.fuel - 1, depth := e.depth + 1 }, ?_, rfl⟩
  rw [whnfInner, whnfTurn_canonical _ _ h]
  rfl

/-- One turn of `consume` at a match. -/
theorem consume_mat {gas n : Nat} {c d : String} {arm fallback : Term} {args : List Term}
    {residual : Bool} {e e' : Engine} {r : Option Term}
    (h : Returns (consume (whnf gas) n (.Mat d arm fallback) (.Ctr c args) residual) e r e') :
    ∃ m e₁, if c = d then ∃ v, r = some v ∧ Returns (whnf gas (apply arm args)) e₁ v e'
      else Returns (consume (whnf gas) m fallback (.Ctr c args) true) e₁ r e' := by
  cases n with
  | zero => exact (returns_exhausted h).elim
  | succ n =>
    rw [consume, returns_bind] at h
    obtain ⟨function, e₁, hfunction, h⟩ := h
    obtain rfl := whnf_canonical rfl hfunction
    simp only [returns_bind] at h
    obtain ⟨scrutinee, e₂, hscrutinee, h⟩ := h
    obtain rfl := whnf_canonical rfl hscrutinee
    refine ⟨n, e₂, ?_⟩
    rw [returns_ite] at h
    split at h
    · rename_i hc
      simp only [returns_bind, returns_pure] at h
      obtain ⟨v, e₃, hv, rfl, rfl⟩ := h
      rw [if_pos hc]
      exact ⟨v, rfl, hv⟩
    · rename_i hc
      rwa [if_neg hc]

/-- **A constructor with an arm goes to it.** -/
theorem takes_of_mem {tree : Term} (hnodup : (armNames tree).Nodup) {c : String} {arm : Term}
    (h : (c, arm) ∈ arms tree) (args : List Term) : Takes tree c args arm := by
  induction tree using tree_induct with
  | last t harms _ => simp [harms] at h
  | mat d arm' fallback ih =>
    obtain ⟨hd, hnodup⟩ := List.nodup_cons.mp hnodup
    rcases List.mem_cons.mp h with heq | hmem
    · obtain ⟨rfl, rfl⟩ := Prod.mk.inj heq
      refine ⟨HeadStep.hit.steps, fun gas n residual e r e' hrun => ?_⟩
      obtain ⟨_, e₁, hrun⟩ := consume_mat hrun
      rw [if_pos rfl] at hrun
      obtain ⟨v, rfl, hv⟩ := hrun
      exact ⟨v, e₁, e', rfl, hv⟩
    · have hne : c ≠ d := by
        rintro rfl
        exact hd (List.mem_map.mpr ⟨_, hmem, rfl⟩)
      obtain ⟨hsteps, hconsumes⟩ := ih hnodup hmem
      refine ⟨(HeadStep.miss hne).steps.trans hsteps, fun gas n residual e r e' hrun => ?_⟩
      obtain ⟨m, e₁, hrun⟩ := consume_mat hrun
      rw [if_neg hne] at hrun
      exact hconsumes _ _ _ _ _ _ hrun

/-- **A constructor without an arm goes to the ending.** -/
theorem falls_of_not_mem {tree : Term} {c : String} (h : c ∉ armNames tree) (args : List Term) :
    Falls tree c args := by
  induction tree using tree_induct with
  | last t _ hlast =>
    refine ⟨by rw [hlast], fun gas n residual e r e' hrun => ⟨n, residual, e, ?_⟩⟩
    rwa [hlast]
  | mat d arm fallback ih =>
    simp only [armNames_mat, List.mem_cons, not_or] at h
    obtain ⟨hsteps, hconsumes⟩ := ih h.2
    refine ⟨(HeadStep.miss h.1).steps.trans hsteps, fun gas n residual e r e' hrun => ?_⟩
    obtain ⟨m, e₁, hrun⟩ := consume_mat hrun
    rw [if_neg h.1] at hrun
    exact hconsumes _ _ _ _ _ _ hrun

/-! ## 3. What the rules look at -/

/-- The datatype of an accepted instance, without the excluded constructors. -/
theorem returns_adtOf {name : String} {args : List Term} {excluded : List String} {e e' : Engine}
    {adt : AdtDecl} (h : Returns (adtOf (.Adt name args excluded)) e adt e') :
    ∃ decl, e.adts name = some decl ∧ adt = decl.retain excluded ∧ e' = e := by
  simp only [adtOf, returns_bind, returns_get] at h
  obtain ⟨_, _, ⟨rfl, rfl⟩, h⟩ := h
  split at h
  · exact (returns_fail h).elim
  · rename_i decl hdecl
    simp only [returns_ite, returns_fail, returns_pure] at h
    split at h
    · exact h.elim
    · split at h
      · exact h.elim
      · exact ⟨decl, hdecl, h.1.symm, h.2.symm⟩

/-- Only an instance has a datatype. -/
theorem adt_of_returns_adtOf {t : Term} {e e' : Engine} {adt : AdtDecl}
    (h : Returns (adtOf t) e adt e') : ∃ name args excluded, t = .Adt name args excluded := by
  unfold adtOf at h
  split at h
  · exact ⟨_, _, _, rfl⟩
  · simp only [failShowing, returns_bind, returns_fail, and_false, exists_false] at h

theorem AdtDecl.mem_retain {decl : AdtDecl} {excluded : List String} {c : ConstructorDecl} :
    c ∈ (decl.retain excluded).constructors ↔ c ∈ decl.constructors ∧ c.name ∉ excluded := by
  simp [AdtDecl.retain]

section Rules

variable {gas : Nat} {lhs : Lhs} {demand quant : Quant} {x : String} {id : Nat}
  {domain body : Term} {Γ : Context} {e e' : Engine} {u : Uses}

/-- **A match in a tree**: its constructor remains, and its fallback is checked without it. -/
theorem returns_checkMat {rules : Rules} {c : String} {arm fallback : Term} {adt : AdtDecl}
    {args : List Term} {excluded : List String}
    (h : Returns (checkMat rules lhs c arm fallback demand quant x id body adt args excluded Γ)
      e u e') :
    ∃ ctr fields e₁ armUses e₂ fallbackUses,
      adt.constructors.find? (·.name = c) = some ctr ∧
      Returns (freshFields quant (fieldsOf adt ctr args) []) e fields e₁ ∧
      Returns (rules.check (lhs.arm fields.1 (.Ctr c fields.2)) arm demand
        (arrows fields.1 (substitute id (.Ctr c fields.2) body)) Γ) e₁ armUses e₂ ∧
      Returns (rules.check lhs fallback demand
        (.All quant x id (.Adt adt.name args (excluded ++ [c])) body) Γ) e₂ fallbackUses e' ∧
      u = armUses.join fallbackUses := by
  unfold checkMat at h
  split at h
  · exact (returns_fail h).elim
  · rename_i ctr hctr
    simp only [returns_bind, returns_pure] at h
    obtain ⟨fields, e₁, hfields, armUses, e₂, harm, fallbackUses, e₃, hfallback, rfl, rfl⟩ := h
    exact ⟨ctr, fields, e₁, armUses, e₂, fallbackUses, hctr, hfields, harm, hfallback, rfl⟩

/-- **A match rule**: the type is a function type, live at a live demand, whose domain is a
datatype. -/
theorem returns_checkMatch {rules : Rules} {value ty : Term}
    (h : Returns (checkMatch gas rules lhs value demand ty Γ) e u e') :
    ∃ quant x id domain body e₁ name args excluded e₂ decl,
      Returns (whnf gas ty) e (.All quant x id domain body) e₁ ∧
      ¬(demand ≠ .None ∧ quant = .None) ∧
      Returns (whnf gas domain) e₁ (.Adt name args excluded) e₂ ∧
      e.adts name = some decl ∧
      Returns (matchRule gas rules lhs demand quant x id body (decl.retain excluded) args excluded
        Γ value) e₂ u e' := by
  rw [checkMatch, returns_bind] at h
  obtain ⟨t, e₁, ht, h⟩ := h
  split at h
  · rename_i quant x id domain body
    rw [returns_ite] at h
    split at h
    · exact (returns_fail h).elim
    · rename_i hlive
      simp only [returns_bind] at h
      obtain ⟨dt, e₂, hdt, adt, e₃, hadt, h⟩ := h
      obtain ⟨name, args, excluded, rfl⟩ := adt_of_returns_adtOf hadt
      obtain ⟨decl, hdecl, rfl, rfl⟩ := returns_adtOf hadt
      have hext := (keeps_whnf _ _ _ _ _ ht).trans (keeps_whnf _ _ _ _ _ hdt)
      rw [hext.adts] at hdecl
      exact ⟨quant, x, id, domain, body, e₁, name, args, excluded, e₃, decl, ht, hlive, hdt,
        hdecl, h⟩
  · simp only [mismatch, returns_bind, returns_fail, and_false, exists_false] at h

/-- A live binder has an empty datatype as its type, as an engine that extends `e` reads it. -/
def LiveEmpty (e : Engine) (Γ : Context) : Prop :=
  ∃ b ∈ Γ.values, b.quant ≠ .None ∧ ∃ gas e₁ name args excluded e₂ decl, e.Extends e₁ ∧
    Returns (whnf gas b.ty) e₁ (.Adt name args excluded) e₂ ∧ e.adts name = some decl ∧
    (decl.retain excluded).constructors = []

theorem LiveEmpty.of_extends (hext : e.Extends e') (h : LiveEmpty e' Γ) : LiveEmpty e Γ := by
  obtain ⟨b, hb, hlive, gas, e₁, name, args, excluded, e₂, decl, he₁, hwhnf, hdecl, hempty⟩ := h
  exact ⟨b, hb, hlive, gas, e₁, name, args, excluded, e₂, decl, hext.trans he₁, hwhnf,
    hext.adts ▸ hdecl, hempty⟩

/-- A dead context has a live binder with an empty datatype. -/
theorem liveEmpty_of_contextDead {binders : List (Binder Term)}
    (h : Returns (contextDead gas binders) e true e') (hsub : ∀ b ∈ binders, b ∈ Γ.values) :
    LiveEmpty e Γ := by
  induction binders generalizing e with
  | nil => simp [contextDead] at h
  | cons b binders ih =>
    have htail : ∀ c ∈ binders, c ∈ Γ.values := fun c hc => hsub c (List.mem_cons_of_mem _ hc)
    rw [contextDead, returns_ite] at h
    split at h
    · exact ih h htail
    · rename_i hlive
      simp only [returns_bind] at h
      obtain ⟨t, e₁, ht, h⟩ := h
      have hext := keeps_whnf _ _ _ _ _ ht
      split at h
      · rename_i name args excluded
        simp only [returns_bind] at h
        obtain ⟨adt, e₂, hadt, h⟩ := h
        obtain ⟨decl, hdecl, rfl, rfl⟩ := returns_adtOf hadt
        rw [returns_ite] at h
        split at h
        · rename_i hempty
          refine ⟨b, hsub b (List.mem_cons_self ..), hlive, gas, e, name, args, excluded, e₂, decl,
            .refl e, ht, hext.adts ▸ hdecl, List.isEmpty_iff.mp hempty⟩
        · exact (ih h htail).of_extends hext
      · exact (ih h htail).of_extends hext

/-- **An accepted `Efq`**: nothing remains, or the context is dead. -/
theorem returns_checkEfq {adt : AdtDecl} (h : Returns (checkEfq gas adt Γ) e u e') :
    u = Uses.new ∧ (adt.constructors = [] ∨ LiveEmpty e Γ) := by
  rw [checkEfq, returns_ite] at h
  split at h
  · rename_i hempty
    exact ⟨(returns_pure.mp h).1.symm, .inl (List.isEmpty_iff.mp hempty)⟩
  · simp only [returns_bind] at h
    obtain ⟨dead, e₁, hdead, h⟩ := h
    cases dead with
    | true => exact ⟨(returns_pure.mp h).1.symm, .inr (liveEmpty_of_contextDead hdead fun _ h => h)⟩
    | false => exact (returns_fail h).elim

/-! ## 4. Down the tree -/

/-- What an accepted tree does with the constructors that `excluded` leaves. -/
structure Covers (e : Engine) (Γ : Context) (decl : AdtDecl) (excluded : List String)
    (tree : Term) : Prop where
  nodup : (armNames tree).Nodup
  remains : ∀ c ∈ armNames tree, ∃ ctr ∈ (decl.retain excluded).constructors, ctr.name = c
  efq : ending tree = .Efq →
    (decl.retain (excluded ++ armNames tree)).constructors = [] ∨ LiveEmpty e Γ

/-- The term was accepted at the type, in a run that started from a later engine. -/
def AcceptedAt (e : Engine) (Γ : Context) (demand : Quant) (value ty : Term) : Prop :=
  ∃ gas lhs e₁ u e₂, e.Extends e₁ ∧ Returns (check gas lhs value demand ty Γ) e₁ u e₂

theorem AcceptedAt.of_extends {value ty : Term} (hext : e.Extends e')
    (h : AcceptedAt e' Γ demand value ty) : AcceptedAt e Γ demand value ty := by
  obtain ⟨gas, lhs, e₁, u, e₂, he₁, hrun⟩ := h
  exact ⟨gas, lhs, e₁, u, e₂, hext.trans he₁, hrun⟩

/-- A node on top of a tree that is covered without its constructor. -/
theorem Covers.mat {decl : AdtDecl} {excluded : List String} {c : String} {arm fallback : Term}
    {ctr : ConstructorDecl}
    (hctr : (decl.retain excluded).constructors.find? (·.name = c) = some ctr)
    (hext : e.Extends e') (h : Covers e' Γ decl (excluded ++ [c]) fallback) :
    Covers e Γ decl excluded (.Mat c arm fallback) := by
  have hname : ctr.name = c := by simpa using List.find?_some hctr
  refine ⟨List.nodup_cons.mpr ⟨fun hmem => ?_, h.nodup⟩, fun d hd => ?_, fun hefq => ?_⟩
  · obtain ⟨ctr', hctr', hname'⟩ := h.remains c hmem
    exact (AdtDecl.mem_retain.mp hctr').2 (by simp [hname'])
  · rcases List.mem_cons.mp hd with rfl | hd
    · exact ⟨ctr, List.mem_of_find?_eq_some hctr, hname⟩
    · obtain ⟨ctr', hctr', hname'⟩ := h.remains d hd
      obtain ⟨hmem, hnot⟩ := AdtDecl.mem_retain.mp hctr'
      exact ⟨ctr', AdtDecl.mem_retain.mpr ⟨hmem, fun h => hnot (List.mem_append_left _ h)⟩, hname'⟩
  · have := h.efq hefq
    rw [List.append_assoc] at this
    exact this.imp_right (·.of_extends hext)

/-- A run of `check` on a match is a run of the match rule. -/
theorem returns_check_match {value ty : Term}
    (hvalue : value = .Efq ∨ ∃ c arm fallback, value = .Mat c arm fallback)
    (h : Returns (check gas lhs value demand ty Γ) e u e') :
    ∃ (gas : Nat) (e₁ e₂ : Engine), e.Extends e₁ ∧
      Returns (checkMatch gas (rules gas) lhs value demand ty Γ) e₁ u e₂ := by
  cases gas with
  | zero => exact (returns_exhausted h).elim
  | succ gas =>
    obtain ⟨-, -, e₂, hrun, -⟩ := returns_charged.mp h
    refine ⟨gas, { e with fuel := e.fuel - 1, depth := e.depth + 1 }, e₂,
      ⟨rfl, rfl, rfl, Nat.le_refl _, fun _ _ h => h⟩, ?_⟩
    rcases hvalue with rfl | ⟨c, arm, fallback, rfl⟩
    · exact hrun
    · exact hrun

/-- At a residual type, the match rule reads the remaining constructors from the type. -/
theorem returns_checkMatch_residual {value : Term} {name : String} {args : List Term}
    {excluded : List String} {decl : AdtDecl}
    (h : Returns (checkMatch gas (rules gas) lhs value demand
      (.All quant x id (.Adt name args excluded) body) Γ) e u e')
    (hdecl : e.adts name = some decl) :
    ∃ e₁, e.Extends e₁ ∧ Returns (matchRule gas (rules gas) lhs demand quant x id body
      (decl.retain excluded) args excluded Γ value) e₁ u e' := by
  obtain ⟨_, _, _, _, _, e₁, _, _, _, e₂, _, hty, -, hdomain, hdecl', hrule⟩ := returns_checkMatch h
  cases whnf_canonical rfl hty
  cases whnf_canonical rfl hdomain
  obtain rfl := Option.some.inj (hdecl'.symm.trans hdecl)
  exact ⟨e₂, (keeps_whnf _ _ _ _ _ hty).trans (keeps_whnf _ _ _ _ _ hdomain), hrule⟩

/-- The tree is covered, and its ending was checked at what the arms leave. -/
def Accepted (e : Engine) (Γ : Context) (demand quant : Quant) (x : String) (id : Nat)
    (body : Term) (name : String) (args : List Term) (excluded : List String) (decl : AdtDecl)
    (tree : Term) : Prop :=
  Covers e Γ decl excluded tree ∧ AcceptedAt e Γ demand (ending tree)
    (.All quant x id (.Adt name args (excluded ++ armNames tree)) body)

/-- **A node of a tree**, over a fallback that covers what its type leaves. -/
theorem accepted_of_checkMat {c : String} {arm fallback : Term} {name : String} {args : List Term}
    {excluded : List String} {decl : AdtDecl} {e₀ : Engine} (hext : e₀.Extends e)
    (h : Returns (checkMat (rules gas) lhs c arm fallback demand quant x id body
      (decl.retain excluded) args excluded Γ) e u e')
    (hdecl : e₀.adts name = some decl)
    (hfallback : ∀ {e u e'}, Returns (check gas lhs fallback demand
      (.All quant x id (.Adt name args (excluded ++ [c])) body) Γ) e u e' →
      e.adts name = some decl →
      Accepted e Γ demand quant x id body name args (excluded ++ [c]) decl fallback) :
    Accepted e₀ Γ demand quant x id body name args excluded decl (.Mat c arm fallback) := by
  obtain ⟨ctr, fields, e₁, armUses, e₂, fallbackUses, hctr, hfields, harm, hrun, -⟩ :=
    returns_checkMat h
  have hname : (decl.retain excluded).name = name := e₀.named name decl hdecl
  rw [hname] at hrun
  have hext₂ : e₀.Extends e₂ := (hext.trans (keeps_freshFields _ _ _ _ _ _ hfields)).trans
    ((keep_rules gas).check _ _ _ _ _ _ _ _ harm)
  obtain ⟨hcovers, haccepted⟩ := hfallback hrun (hext₂.adts ▸ hdecl)
  refine ⟨hcovers.mat hctr hext₂, ?_⟩
  rw [List.append_assoc] at haccepted
  exact haccepted.of_extends hext₂

/-- **Checking at a residual type covers what the type leaves.** -/
theorem check_covers {tree : Term} {name : String} {args : List Term} {excluded : List String}
    {decl : AdtDecl}
    (h : Returns (check gas lhs tree demand (.All quant x id (.Adt name args excluded) body) Γ)
      e u e')
    (hdecl : e.adts name = some decl) :
    Accepted e Γ demand quant x id body name args excluded decl tree := by
  induction tree using tree_induct generalizing gas lhs excluded e u e' with
  | last t harms hlast =>
    have hnames : armNames t = [] := by rw [armNames, harms, List.map_nil]
    refine ⟨⟨by simp [hnames], by simp [hnames], fun hefq => ?_⟩, ?_⟩
    · obtain rfl : t = .Efq := hlast.symm.trans hefq
      obtain ⟨gas, e₁, e₂, hext, hrun⟩ := returns_check_match (.inl rfl) h
      obtain ⟨e₃, hext', hrule⟩ := returns_checkMatch_residual hrun (hext.adts ▸ hdecl)
      rw [hnames, List.append_nil]
      exact (returns_checkEfq hrule).2.imp_right (·.of_extends (hext.trans hext'))
    · rw [hlast, hnames, List.append_nil]
      exact ⟨gas, lhs, e, u, e', .refl e, h⟩
  | mat c arm fallback ih =>
    obtain ⟨gas, e₁, e₂, hext, hrun⟩ := returns_check_match (.inr ⟨c, arm, fallback, rfl⟩) h
    obtain ⟨e₃, hext', hrule⟩ := returns_checkMatch_residual hrun (hext.adts ▸ hdecl)
    exact accepted_of_checkMat (hext.trans hext') hrule hdecl ih

end Rules

/-! ## 5. The theorem -/

/-- **Accepted matches cover their datatype.**  When the match rule accepts a tree at a function
type whose domain is a datatype instance, no arm names an excluded or a repeated constructor, and
every constructor that is not excluded either has exactly one arm or is still in the residual type
at which the ending was checked.  If no live binder has an empty datatype as its type, a value with
the declared number of fields goes to the arm of its constructor or to an ending that is not `Efq`:
it never reaches the `Efq` that ends the tree. -/
theorem match_coverage {gas : Nat} {lhs : Lhs} {tree ty : Term} {demand quant : Quant}
    {Γ : Context} {e e' e₁ e₂ : Engine} {u : Uses} {x : String} {id : Nat} {domain body : Term}
    {name : String} {args : List Term} {excluded : List String} {decl : AdtDecl}
    (htree : tree = .Efq ∨ ∃ c arm fallback, tree = .Mat c arm fallback)
    (hty : Returns (whnf gas ty) e (.All quant x id domain body) e₁)
    (hdomain : Returns (whnf gas domain) e₁ (.Adt name args excluded) e₂)
    (hdecl : e.adts name = some decl)
    (h : Returns (checkMatch gas (rules gas) lhs tree demand ty Γ) e u e') :
    (∀ c ∈ (decl.retain excluded).constructors,
      (armNames tree).count c.name = 1 ∨
        (armNames tree).count c.name = 0 ∧
          c ∈ (decl.retain (excluded ++ armNames tree)).constructors ∧
          (tree = .Efq ∨ AcceptedAt e Γ demand (ending tree)
            (.All quant x id (.Adt name args (excluded ++ armNames tree)) body))) ∧
    (armNames tree).Nodup ∧
    (∀ c ∈ armNames tree, c ∉ excluded ∧ ∃ ctr ∈ decl.constructors, ctr.name = c) ∧
    (¬LiveEmpty e Γ → ∀ c ∈ (decl.retain excluded).constructors, ∀ fields : List Term,
      fields.length = c.fields.length →
        (∃ arm, (c.name, arm) ∈ arms tree ∧ Takes tree c.name fields arm) ∨
          ending tree ≠ .Efq ∧ Falls tree c.name fields) := by
  obtain ⟨hcovers, haccepted⟩ : Covers e Γ decl excluded tree ∧ (tree = .Efq ∨ AcceptedAt e Γ
      demand (ending tree)
        (.All quant x id (.Adt name args (excluded ++ armNames tree)) body)) := by
    obtain ⟨_, _, _, _, _, _, _, _, _, e₃, _, hty', -, hdomain', hdecl', hrule⟩ :=
      returns_checkMatch h
    obtain ⟨heq, rfl⟩ := hty.unique hty'
    cases heq
    obtain ⟨heq, rfl⟩ := hdomain.unique hdomain'
    cases heq
    obtain rfl := Option.some.inj (hdecl'.symm.trans hdecl)
    have hext := (keeps_whnf _ _ _ _ _ hty).trans (keeps_whnf _ _ _ _ _ hdomain)
    rcases htree with rfl | ⟨c, arm, fallback, rfl⟩
    · refine ⟨⟨.nil, by simp [armNames, arms], fun _ => ?_⟩, .inl rfl⟩
      rw [show armNames .Efq = [] from rfl, List.append_nil]
      exact (returns_checkEfq hrule).2.imp_right (·.of_extends hext)
    · exact (accepted_of_checkMat hext hrule hdecl check_covers).imp_right .inr
  refine ⟨fun c hc => ?_, hcovers.nodup, fun c hc => ?_, fun hlive c hc fields _ => ?_⟩
  · by_cases hmem : c.name ∈ armNames tree
    · exact .inl (List.count_eq_one_of_mem hcovers.nodup hmem)
    · refine .inr ⟨List.count_eq_zero.mpr hmem, ?_, haccepted⟩
      obtain ⟨hdeclared, hnot⟩ := AdtDecl.mem_retain.mp hc
      exact AdtDecl.mem_retain.mpr ⟨hdeclared, by simp [hnot, hmem]⟩
  · obtain ⟨ctr, hctr, rfl⟩ := hcovers.remains c hc
    obtain ⟨hdeclared, hnot⟩ := AdtDecl.mem_retain.mp hctr
    exact ⟨hnot, ctr, hdeclared, rfl⟩
  · by_cases hmem : c.name ∈ armNames tree
    · obtain ⟨⟨d, arm⟩, harm, rfl⟩ := List.mem_map.mp hmem
      exact .inl ⟨arm, harm, takes_of_mem hcovers.nodup harm fields⟩
    · refine .inr ⟨fun hefq => ?_, falls_of_not_mem hmem fields⟩
      rcases hcovers.efq hefq with hempty | hdead
      · -- the constructor is not excluded and has no arm, so something remains
        obtain ⟨hdeclared, hnot⟩ := AdtDecl.mem_retain.mp hc
        have hremains : c ∈ (decl.retain (excluded ++ armNames tree)).constructors :=
          AdtDecl.mem_retain.mpr ⟨hdeclared, by simp [hnot, hmem]⟩
        simp [hempty] at hremains
      · exact hlive hdead

/-! ### A box of nothing -/

/-- An engine that knows an empty datatype and a box around it. -/
def boxEngine : Engine where
  defs _ := none
  adts name :=
    if name = "Empty" then some ⟨"Empty", [], kind .Lone, []⟩
    else if name = "Box" then
      some ⟨"Box", [], kind .Lone, [⟨"box", [⟨.Lone, "value", 0, .Adt "Empty" [] []⟩]⟩]⟩
    else none
  named := by
    intro name adt h
    split at h
    · cases h
      exact Eq.symm ‹_›
    · split at h
      · cases h
        exact Eq.symm ‹_›
      · cases h
  aliases _ := none
  foreignContracts _ := false
  numericContracts _ := false
  opaqueContracts _ := false
  freshId := 2
  fuel := 20
  depth := 0
  pointers := .distinct
  display _ := ""

/-- `{box: {}}`, whose arm is `Efq` at the field. -/
def boxMatch : Term := .Mat "box" .Efq .Efq

/-- The type of `boxMatch`. -/
def boxGoal : Term := .All .Lone "x" 1 (.Adt "Box" [] []) .Qnt

theorem boxMatch_accepted : ∃ u e',
    Returns (checkMatch 3 (rules 3) .default boxMatch .Lone boxGoal .new) boxEngine u e' := by
  have hrun : (result (checkMatch 3 (rules 3) .default boxMatch .Lone boxGoal .new) boxEngine).map
      (· 0) = some .None := by decide +kernel
  obtain ⟨u, e', h, -⟩ := returns_of_result hrun
  exact ⟨u, e', h⟩

theorem not_liveEmpty_new (e : Engine) : ¬LiveEmpty e .new := by simp [LiveEmpty, Context.new]

/-- A box goes to its arm. -/
theorem match_coverage_box : ∃ arm, ("box", arm) ∈ arms boxMatch ∧
    Takes boxMatch "box" [.Rfl] arm := by
  obtain ⟨u, e', h⟩ := boxMatch_accepted
  have hbox : boxEngine.adts "Box" = some ⟨"Box", [], kind .Lone,
      [⟨"box", [⟨.Lone, "value", 0, .Adt "Empty" [] []⟩]⟩]⟩ := rfl
  obtain ⟨-, -, -, htakes⟩ := match_coverage (.inr ⟨_, _, _, rfl⟩)
    (returns_whnf_canonical (t := boxGoal) rfl (by decide) (by decide))
    (returns_whnf_canonical (t := .Adt "Box" [] []) rfl (by decide) (by decide)) hbox h
  rcases htakes (not_liveEmpty_new _) ⟨"box", _⟩ (by simp [AdtDecl.retain]; rfl) [.Rfl] rfl with
    harm | ⟨hefq, -⟩
  · exact harm
  · exact absurd rfl hefq

/-- The arm of an accepted tree may be `Efq`, and then a box reaches it. -/
theorem match_efq_arm_reached :
    (∃ u e', Returns (checkMatch 3 (rules 3) .default boxMatch .Lone boxGoal .new) boxEngine u e') ∧
      ¬LiveEmpty boxEngine .new ∧ ReachesEfq (.App boxMatch (.Ctr "box" [.Rfl])) :=
  ⟨boxMatch_accepted, not_liveEmpty_new _, [.Rfl], HeadStep.hit.steps⟩

end TeamyBend.Kernel
