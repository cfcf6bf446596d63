/-
# Rows before and after a step

A step of match compilation changes the rows and the variables of the match.  Read in the
environment that the values give to the variables, the rows mean the same after the step: dropping
a column of variables, going to the arm of the first value's constructor, or leaving out the rows of
another constructor.
-/
import TeamyBend.Syntax.Columns

namespace TeamyBend.Syntax

open Kernel

/-! ## 1. Values -/

/-- A closed constructor value whose constructors have their arities. -/
inductive Value (arity : String → Nat) : Term → Prop where
  | ctr {name : String} {args : List Term} (hlen : args.length = arity name)
      (hargs : ∀ a ∈ args, Value arity a) : Value arity (.Ctr name args)

theorem Value.closed {arity : String → Nat} {v : Term} (h : Value arity v) (id : Nat) :
    ¬FreeIn id v := by
  induction h with
  | ctr _ _ ih =>
    intro hfree
    cases hfree with
    | ctr ha hfree => exact ih _ ha hfree

/-! ## 2. Rows before and after a step -/

section Rows

variable {ρ ρ' : Env}

/-- A variable at the head of a row is not bound again in the row's body. -/
theorem head_quiet {arity : String → Nat} {n : Nat} {t : Term} {ss : List Term}
    {rows : List (Row Body)} {vars : List Variable} {v p : Variable}
    (h : MatchState.Inv arity n ⟨t :: ss, rows, vars⟩) (hv : v ∈ vars) (ht : isVar t v)
    {r : Row Body} (hr : r ∈ rows) {ps : List Pattern} (hps : r.patterns = .Variable p :: ps) :
    ¬r.body.Binds p.id ∧ p.id ∉ r.body.names := by
  cases hown : own t (.Variable p) with
  | false =>
    have hp : p.id ∈ foreign (t :: ss) r.patterns := by simp [hps, foreign, hown, Pattern.ids]
    exact h.separate.quiet r hr p.id hp r hr
  | true =>
    obtain ⟨name, rfl⟩ := isVar_iff.mp ht
    obtain ⟨name', heq⟩ := isVar_iff.mp (show isVar (.Var name v.id) p from hown)
    simp only [Term.Var.injEq] at heq
    exact heq.2 ▸ h.quiet v.id (List.mem_map_of_mem hv) r hr

/-- A column of variables: each pattern takes the value of the scrutinee. -/
theorem rowsMeaning_column {arity : String → Nat} {n : Nat} {t : Term} {ss : List Term}
    {rows : List (Row Body)} {vars : List Variable} {v : Variable} {w : Term}
    (h : MatchState.Inv arity n ⟨t :: ss, rows, vars⟩) (hv : v ∈ vars) (ht : isVar t v)
    (hrows : Variables rows) (hw : ρ v.id = some w) :
    Body.rowsMeaning rows ρ ((t :: ss).map (subst ρ)) =
      Body.rowsMeaning (rows.map (dropColumn v)) ρ (ss.map (subst ρ)) := by
  have hvid : v.id ∈ idsOf vars := List.mem_map_of_mem hv
  have htw : subst ρ t = w := by
    obtain ⟨name, rfl⟩ := isVar_iff.mp ht
    simp [subst, hw]
  refine Body.rowsMeaning_map fun r hr => ?_
  obtain ⟨p, ps, hps⟩ := hrows r hr
  have hforeign : v.id ∉ foreign ss ps := fun hx => h.new r hr v.id (by
    simp only [MatchState.foreignOf, hps, foreign, List.mem_append]
    exact .inr hx) hvid
  have hquiet := head_quiet h hv ht hr hps
  simp only [Body.rowMeaning, dropColumn, hps, List.map_cons, matchPatterns, matchPattern, htw]
  cases hbs : matchPatterns ps (ss.map (subst ρ)) with
  | none => rfl
  | some bs =>
    have hvalue : subst (ρ.setAll bs) v.term = w := by
      simp [Variable.term, subst, setAll_own hbs hforeign hw]
    simp only [Option.map_some, List.singleton_append, Env.setAll]
    rw [Body.meaning_replace hquiet.2, hvalue]
    intro id hid
    rw [freeIn_term hid]
    exact (h.quiet _ hvid r hr).symm

/-- The body of a row for the arm. -/
theorem meaning_replace_constructor {b : Body} {first : Variable} {v value : Term}
    (hfirst : ρ first.id = some v) (hvalue : subst ρ' value = v)
    (hagree : ∀ y, b.Uses y → y ≠ first.id → ρ y = ρ' y) (hname : first.id ∉ b.names)
    (hquiet : ∀ id, FreeIn id value → id ∉ b.names ∧ ¬b.Binds id) :
    b.meaning ρ = (b.replace first.id value).meaning ρ' := by
  rw [Body.meaning_replace hname hquiet, hvalue]
  refine Body.meaning_congr fun y hy => ?_
  by_cases hyf : y = first.id
  · rw [hyf, Env.set_self, hfirst]
  · rw [Env.set_of_ne _ _ hyf, hagree y hy hyf]

/-- A constructor pattern at its constructor matches the fields. -/
theorem matchPatterns_constructor {name : String} {ps patterns : List Pattern}
    {args values : List Term} (h : ps.length = args.length) :
    matchPatterns (.Constructor name ps :: patterns) (.Ctr name args :: values) =
      matchPatterns (ps ++ patterns) (args ++ values) := by
  rw [matchPatterns_append h]
  simp only [matchPatterns, matchPattern, if_true]
  cases matchPatterns ps args with
  | none => simp
  | some b => cases matchPatterns patterns values <;> simp

/-- Variables with values. -/
theorem map_subst_term {vs : List Variable} {args : List Term}
    (h : (idsOf vs).map ρ = args.map some) : (vs.map Variable.term).map (subst ρ) = args := by
  induction vs generalizing args with
  | nil =>
    cases args with
    | nil => rfl
    | cons a args => cases h
  | cons v vs ih =>
    cases args with
    | nil => cases h
    | cons a args =>
      simp only [idsOf, List.map_cons, List.cons.injEq] at h
      simp only [List.map_cons, Variable.term, subst, h.1, Option.getD_some, List.cons.injEq,
        true_and]
      exact ih h.2

theorem subst_constructor {name : String} {vs : List Variable} {args : List Term}
    (h : (idsOf vs).map ρ = args.map some) :
    subst ρ (Pattern.Constructor name (vs.map .Variable)).term = .Ctr name args := by
  rw [constructor_term, subst, substArgs_eq, map_subst_term h]

variable {arity : String → Nat} {t : Term} {ss : List Term} {rows : List (Row Body)}
  {first : Variable} {vars : List Variable} {name : String} {fields ps₀ : List Pattern}
  {r₀ : Row Body} {c : Counters} {args : List Term}

/-- A row with the constructor of the arm. -/
theorem rowMeaning_constructor
    (hinv : MatchState.Inv arity c.fresh ⟨t :: ss, rows, first :: vars⟩) (ht : isVar t first)
    (hsplit : Splits rows name fields r₀ ps₀) (hlen : args.length = fields.length)
    (hfirst : ρ first.id = some (.Ctr name args))
    (hfields : (idsOf (fieldVars fields c).1).map ρ' = args.map some)
    (hagree : ∀ y, y ≠ first.id → y ∉ idsOf (fieldVars fields c).1 → ρ y = ρ' y)
    (hss : ss.map (subst ρ) = ss.map (subst ρ')) {r : Row Body} (hr : r ∈ rows)
    {ps patterns : List Pattern} (hps : r.patterns = .Constructor name ps :: patterns) :
    Body.rowMeaning r ρ (.Ctr name args :: ss.map (subst ρ)) =
      Body.rowMeaning ⟨ps ++ patterns, r.body.replace first.id
        (Pattern.Constructor name ((fieldVars fields c).1.map .Variable)).term⟩ ρ'
        (args ++ ss.map (subst ρ')) := by
  obtain ⟨hr₀, hps₀, hlens⟩ := hsplit
  have hpslen : ps.length = args.length := (hlens r hr ps patterns hps).trans hlen.symm
  have htv : subst ρ t = .Ctr name args := by
    obtain ⟨x, rfl⟩ := isVar_iff.mp ht
    simp [subst, hfirst]
  simp only [Body.rowMeaning, hps]
  rw [matchPatterns_constructor hpslen, hss]
  cases hbs : matchPatterns (ps ++ patterns) (args ++ ss.map (subst ρ')) with
  | none => rfl
  | some bs =>
    have hold : matchPatterns r.patterns ((t :: ss).map (subst ρ)) = some bs := by
      rw [hps, List.map_cons, htv, matchPatterns_constructor hpslen, hss, hbs]
    have hnew : matchPatterns (ps ++ patterns)
        (((fieldVars fields c).1.map Variable.term ++ ss).map (subst ρ')) = some bs := by
      rw [List.map_append, map_subst_term hfields, hbs]
    have hdom : bs.map Prod.fst = idsAll ps ++ idsAll patterns := by
      rw [matchPatterns_ids hbs, idsAll_append]
    have hrow : armRow name (fieldVars fields c).1 first
        (Pattern.Constructor name ((fieldVars fields c).1.map .Variable)).term r =
          some ⟨ps ++ patterns, r.body.replace first.id
            (Pattern.Constructor name ((fieldVars fields c).1.map .Variable)).term⟩ := by
      simp [armRow, hps]
    have hapart := (armRow_foreign hinv hr₀ hps₀ hlens hr hrow).2
    have hkeep : (ρ.setAll bs) first.id = some (.Ctr name args) :=
      setAll_own hold (fun hx => hinv.new r hr _ hx (by simp)) hfirst
    refine congrArg some (meaning_replace_constructor hkeep (subst_constructor ?_) ?_ ?_ ?_)
    · rw [← hfields]
      refine List.map_congr_left fun f hf => ?_
      have hmem : ρ' f ∈ args.map some := hfields ▸ List.mem_map_of_mem hf
      obtain ⟨a, -, ha⟩ := List.mem_map.mp hmem
      rw [← ha]
      exact setAll_own hnew (fun hx => hapart f hx hf) ha.symm
    · intro y hy hne
      by_cases hmem : y ∈ bs.map Prod.fst
      · exact Env.setAll_of_mem _ _ hmem
      · rw [Env.setAll_of_not_mem _ hmem, Env.setAll_of_not_mem _ hmem]
        refine hagree y hne fun hf => ?_
        by_cases hr₀' : r = r₀
        · subst hr₀'
          obtain ⟨heq, -⟩ : ps = fields ∧ patterns = ps₀ := by
            rw [hps₀] at hps
            cases hps
            exact ⟨rfl, rfl⟩
          subst heq
          rcases fieldVars_mem hf with hf | ⟨hlow, -⟩
          · exact hmem (hdom ▸ List.mem_append_left _ hf)
          · exact Nat.not_le_of_lt (hinv.below y (.inr (.inr ⟨r, hr, .inr (.inl hy)⟩))) hlow
        · exact (field_other hinv hr₀ hps₀ hf hr hr₀').2 hy
    · exact (hinv.quiet first.id (by simp) r hr).2
    · exact fun id hid => (field_quiet hinv hr₀ hps₀ (freeIn_constructor hid) hr).symm

/-- A row with a variable, in the arm. -/
theorem rowMeaning_variable
    (hinv : MatchState.Inv arity c.fresh ⟨t :: ss, rows, first :: vars⟩) (ht : isVar t first)
    (hsplit : Splits rows name fields r₀ ps₀) (hlen : args.length = fields.length)
    (hfirst : ρ first.id = some (.Ctr name args))
    (hagree : ∀ y, y ≠ first.id → y ∉ idsOf (fieldVars fields c).1 → ρ y = ρ' y)
    (hss : ss.map (subst ρ) = ss.map (subst ρ')) {r : Row Body} (hr : r ∈ rows) {v : Variable}
    {patterns : List Pattern} (hps : r.patterns = .Variable v :: patterns) :
    Body.rowMeaning r ρ (.Ctr name args :: ss.map (subst ρ)) =
      Body.rowMeaning ⟨(fieldVars fields c).1.map .Variable ++ patterns,
        (r.body.replace v.id first.term).replace first.id
          (Pattern.Constructor name ((fieldVars fields c).1.map .Variable)).term⟩ ρ'
        (args ++ ss.map (subst ρ')) := by
  obtain ⟨hr₀, hps₀, hlens⟩ := hsplit
  have hne₀ : r ≠ r₀ := by
    rintro rfl
    rw [hps₀] at hps
    cases hps
  have hflen : (fieldVars fields c).1.length = args.length := by rw [fieldVars_length, hlen]
  have hnodup : (idsOf (fieldVars fields c).1).Nodup := by
    have harm := (MatchState.Inv.arm hinv hr₀ hps₀ hlens).nodup
    rw [idsOf, List.map_append] at harm
    exact (List.nodup_append.mp harm).1
  have hfirstQuiet := hinv.quiet first.id (by simp) r hr
  have hvQuiet := (head_quiet hinv (by simp) ht hr hps).2
  simp only [Body.rowMeaning, hps]
  rw [matchPatterns_append (by simpa using hflen), matchPatterns_variables hflen, hss]
  simp only [matchPatterns, matchPattern, Option.bind_some]
  cases hbs : matchPatterns patterns (ss.map (subst ρ')) with
  | none => rfl
  | some bs =>
    have hkeep : (ρ.setAll bs) first.id = some (.Ctr name args) := by
      refine setAll_own (hss ▸ hbs) (fun hx => hinv.new r hr first.id ?_ (by simp)) hfirst
      simp only [MatchState.foreignOf, hps, foreign, List.mem_append]
      exact .inr hx
    have hbind : ρ'.setAll ((idsOf (fieldVars fields c).1).zip args ++ bs) =
        (ρ'.setAll bs).bindAll (idsOf (fieldVars fields c).1) args := by
      rw [Env.setAll_append, Env.bindAll_eq_setAll hnodup]
    have hvalue : subst (ρ.setAll bs) first.term = .Ctr name args := by
      simp [Variable.term, subst, hkeep]
    refine congrArg some ?_
    calc r.body.meaning (ρ.setAll ([(v.id, .Ctr name args)] ++ bs))
        = (r.body.replace v.id first.term).meaning (ρ.setAll bs) := by
          rw [Body.meaning_replace hvQuiet, hvalue]
          · rfl
          · intro id hid
            rw [freeIn_term hid]
            exact hfirstQuiet.symm
      _ = _ := by
        refine meaning_replace_constructor hkeep (subst_constructor ?_) ?_ ?_ ?_
        · rw [hbind]
          exact Env.map_bindAll (by simpa using hflen) hnodup
        · intro y hy hne
          have hyr : r.body.Uses y := by
            rcases hy.of_replace with ⟨hy, -⟩ | hy
            · exact hy
            · exact absurd (freeIn_term hy) hne
          have hyf : y ∉ idsOf (fieldVars fields c).1 := fun hf =>
            (field_other hinv hr₀ hps₀ hf hr hne₀).2 hyr
          rw [hbind, Env.bindAll_of_not_mem hyf]
          exact Env.setAll_agree bs (hagree y hne hyf)
        · simpa using hfirstQuiet.2
        · intro id hid
          obtain ⟨hb, hn⟩ := field_quiet hinv hr₀ hps₀ (freeIn_constructor hid) hr
          refine ⟨by simpa using hn, fun hb' => hb ?_⟩
          exact hb'.of_replace.resolve_right (not_boundIn_term first id)

/-- **The arm** means what the match means at its constructor. -/
theorem rowsMeaning_arm
    (hinv : MatchState.Inv arity c.fresh ⟨t :: ss, rows, first :: vars⟩) (ht : isVar t first)
    (hsplit : Splits rows name fields r₀ ps₀) (hlen : args.length = fields.length)
    (hfirst : ρ first.id = some (.Ctr name args))
    (hfields : (idsOf (fieldVars fields c).1).map ρ' = args.map some)
    (hagree : ∀ y, y ≠ first.id → y ∉ idsOf (fieldVars fields c).1 → ρ y = ρ' y)
    (hss : ss.map (subst ρ) = ss.map (subst ρ')) :
    Body.rowsMeaning rows ρ (.Ctr name args :: ss.map (subst ρ)) =
      Body.rowsMeaning (armState ss rows first vars name fields c).rows ρ'
        (args ++ ss.map (subst ρ')) := by
  refine Body.rowsMeaning_filterMap (fun r hr hnone => ?_) fun r hr r' hrow => ?_
  · unfold armRow at hnone
    split at hnone
    · rename_i hps
      have hwide := (hinv.wide r hr).1
      simp [hps] at hwide
    · rename_i n ps patterns hps
      split at hnone
      · cases hnone
      · rename_i hn
        simp [Body.rowMeaning, hps, matchPatterns, matchPattern, hn]
    · cases hnone
  · unfold armRow at hrow
    split at hrow
    · cases hrow
    · rename_i n ps patterns hps
      split at hrow
      · rename_i hn
        subst hn
        cases hrow
        exact rowMeaning_constructor hinv ht hsplit hlen hfirst hfields hagree hss hr hps
      · cases hrow
    · rename_i v patterns hps
      cases hrow
      exact rowMeaning_variable hinv ht hsplit hlen hfirst hagree hss hr hps

/-- **The fallback** means what the match means at another constructor. -/
theorem rowsMeaning_fallback {d : String} {values : List Term} (hd : d ≠ name) :
    Body.rowsMeaning rows ρ (.Ctr d args :: values) =
      Body.rowsMeaning (rows.filterMap (fallbackRow name)) ρ (.Ctr d args :: values) := by
  refine Body.rowsMeaning_filterMap (fun r hr hnone => ?_) fun r hr r' hrow => ?_
  · unfold fallbackRow at hnone
    split at hnone
    · rename_i n ps patterns hps
      split at hnone
      · rename_i hn
        simp [Body.rowMeaning, hps, matchPatterns, matchPattern, hn, Ne.symm hd]
      · cases hnone
    · cases hnone
  · rw [fallbackRow_eq hrow]

end Rows

end TeamyBend.Syntax
