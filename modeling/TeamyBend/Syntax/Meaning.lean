/-
# What a body means

The meaning of a surface body, without compiling it: a match takes the first row all of whose
patterns match, and its body reads the names of the row as the components they matched.  A `let`
by patterns is a match with one row.  Every other name keeps what the environment says of it.

The meaning looks only at the names a body uses (`meaning_congr`), and replacing a name in a body
is the same as giving it a value in the environment (`meaning_replace`).
-/
import TeamyBend.Syntax.Surface
import TeamyBend.Kernel.Head

namespace TeamyBend.Syntax

open Kernel

/-! ## 1. Matching -/

mutual

/-- The numbers that a pattern binds. -/
def Pattern.ids : Pattern → List Nat
  | .Variable v => [v.id]
  | .Constructor _ fields => idsAll fields

/-- The numbers that patterns bind. -/
def idsAll : List Pattern → List Nat
  | [] => []
  | p :: ps => p.ids ++ idsAll ps

end

mutual

/-- Match a value, binding the names of the pattern to its components. -/
def matchPattern : Pattern → Term → Option (List (Nat × Term))
  | .Variable v, t => some [(v.id, t)]
  | .Constructor name fields, .Ctr constructor args =>
    if name = constructor then matchPatterns fields args else none
  | .Constructor _ _, _ => none

/-- Match values one by one. -/
def matchPatterns : List Pattern → List Term → Option (List (Nat × Term))
  | [], [] => some []
  | p :: ps, t :: ts =>
    match matchPattern p t, matchPatterns ps ts with
    | some bs, some bs' => some (bs ++ bs')
    | _, _ => none
  | _, _ => none

end

theorem idsAll_append (ps qs : List Pattern) : idsAll (ps ++ qs) = idsAll ps ++ idsAll qs := by
  induction ps with
  | nil => rfl
  | cons p ps ih => simp [idsAll, ih]

theorem idsAll_variables (vs : List Variable) :
    idsAll (vs.map .Variable) = vs.map Variable.id := by
  induction vs with
  | nil => rfl
  | cons v vs ih => simp [idsAll, Pattern.ids, ih]

theorem matchPatterns_cons_some {p : Pattern} {ps : List Pattern} {t : Term} {ts : List Term}
    {bs : List (Nat × Term)} :
    matchPatterns (p :: ps) (t :: ts) = some bs ↔
      ∃ b b', matchPattern p t = some b ∧ matchPatterns ps ts = some b' ∧ bs = b ++ b' := by
  simp only [matchPatterns]
  cases hp : matchPattern p t <;> cases hps : matchPatterns ps ts <;> simp [eq_comm]

theorem matchPatterns_append {ps qs : List Pattern} {ts us : List Term}
    (h : ps.length = ts.length) :
    matchPatterns (ps ++ qs) (ts ++ us) =
      (matchPatterns ps ts).bind fun b => (matchPatterns qs us).map (b ++ ·) := by
  induction ps generalizing ts with
  | nil =>
    obtain rfl := List.length_eq_zero_iff.mp h.symm
    simp [matchPatterns]
  | cons p ps ih =>
    cases ts with
    | nil => simp at h
    | cons t ts =>
      have hlen : ps.length = ts.length := by simpa using h
      simp only [List.cons_append, matchPatterns, ih hlen]
      cases matchPattern p t with
      | none => simp
      | some b =>
        cases matchPatterns ps ts with
        | none => simp
        | some b' => cases matchPatterns qs us <;> simp

theorem matchPatterns_variables {vs : List Variable} {ts : List Term}
    (h : vs.length = ts.length) :
    matchPatterns (vs.map .Variable) ts = some ((vs.map Variable.id).zip ts) := by
  induction vs generalizing ts with
  | nil =>
    obtain rfl := List.length_eq_zero_iff.mp h.symm
    rfl
  | cons v vs ih =>
    cases ts with
    | nil => simp at h
    | cons t ts => simp [matchPatterns, matchPattern, ih (by simpa using h)]

mutual

/-- A match binds the names of the pattern, in their order. -/
theorem matchPattern_ids {bs : List (Nat × Term)} : ∀ {p : Pattern} {t : Term},
    matchPattern p t = some bs → bs.map Prod.fst = p.ids
  | .Variable v, t, h => by
    simp only [matchPattern, Option.some.injEq] at h
    simp [← h, Pattern.ids]
  | .Constructor name fields, t, h => by
    cases t <;> simp only [matchPattern, reduceCtorEq] at h
    split at h
    · simpa [Pattern.ids] using matchPatterns_ids h
    · cases h

/-- Matching binds the names of the patterns, in their order. -/
theorem matchPatterns_ids {bs : List (Nat × Term)} : ∀ {ps : List Pattern} {ts : List Term},
    matchPatterns ps ts = some bs → bs.map Prod.fst = idsAll ps
  | [], [], h => by
    simp only [matchPatterns, Option.some.injEq] at h
    simp [← h, idsAll]
  | [], _ :: _, h => by cases h
  | _ :: _, [], h => by cases h
  | p :: ps, t :: ts, h => by
    obtain ⟨b, b', hp, hps, rfl⟩ := matchPatterns_cons_some.mp h
    simp [idsAll, matchPattern_ids hp, matchPatterns_ids hps]

end

/-! ## 2. The names of a body -/

namespace Body

mutual

/-- The core terms of a body. -/
def terms : Body → List Term
  | .Empty => []
  | .Reply value => [value]
  | .Local _ _ values body => values ++ terms body
  | .Match scrutinees rows => scrutinees ++ rowsTerms rows

/-- The core terms in rows. -/
def rowsTerms : List (Row Body) → List Term
  | [] => []
  | ⟨_, body⟩ :: rows => terms body ++ rowsTerms rows

end

mutual

/-- The numbers that the patterns of a body bind. -/
def names : Body → List Nat
  | .Empty => []
  | .Reply _ => []
  | .Local patterns _ _ body => idsAll patterns ++ names body
  | .Match _ rows => rowsNames rows

/-- The numbers that the patterns of rows bind. -/
def rowsNames : List (Row Body) → List Nat
  | [] => []
  | ⟨patterns, body⟩ :: rows => idsAll patterns ++ names body ++ rowsNames rows

end

@[simp] theorem rowsTerms_eq (rows : List (Row Body)) :
    rowsTerms rows = rows.flatMap fun r => r.body.terms := by
  induction rows with
  | nil => rfl
  | cons r rows ih => simp [rowsTerms, ih]

@[simp] theorem rowsNames_eq (rows : List (Row Body)) :
    rowsNames rows = rows.flatMap fun r => idsAll r.patterns ++ r.body.names := by
  induction rows with
  | nil => rfl
  | cons r rows ih => simp [rowsNames, ih]

/-- A term of the body uses the number freely. -/
def Uses (b : Body) (id : Nat) : Prop := ∃ t ∈ b.terms, FreeIn id t

/-- A term of the body binds the number. -/
def Binds (b : Body) (id : Nat) : Prop := ∃ t ∈ b.terms, BoundIn id t

@[simp] theorem terms_mapTerms (f : Term → Term) (b : Body) :
    (b.mapTerms f).terms = b.terms.map f := by
  induction b with
  | Empty => rfl
  | Reply value => rfl
  | Local patterns quant values body ih => simp [mapTerms, terms, ih]
  | Match scrutinees rows ih =>
    simp only [mapTerms, terms, mapRows_eq, rowsTerms_eq, List.map_append, List.flatMap_map,
      List.map_flatMap]
    rw [List.flatMap_congr ih]

@[simp] theorem names_mapTerms (f : Term → Term) (b : Body) : (b.mapTerms f).names = b.names := by
  induction b with
  | Empty => rfl
  | Reply value => rfl
  | Local patterns quant values body ih => simp [mapTerms, names, ih]
  | Match scrutinees rows ih =>
    simp only [mapTerms, names, mapRows_eq, rowsNames_eq, List.flatMap_map]
    exact List.flatMap_congr fun r hr => by rw [ih r hr]

@[simp] theorem names_replace (b : Body) (x : Nat) (u : Term) : (b.replace x u).names = b.names :=
  names_mapTerms _ b

/-- A name used after a replacement was used before, or comes in. -/
theorem Uses.of_replace {b : Body} {x id : Nat} {u : Term} (h : (b.replace x u).Uses id) :
    (b.Uses id ∧ id ≠ x) ∨ FreeIn id u := by
  obtain ⟨t, ht, hfree⟩ := h
  rw [replace, terms_mapTerms] at ht
  obtain ⟨t, hmem, rfl⟩ := List.mem_map.mp ht
  rw [substitute_eq] at hfree
  rcases hfree.of_subst with ⟨hfree, hnone⟩ | ⟨y, w, _, hy, hw⟩
  · refine .inl ⟨⟨t, hmem, hfree⟩, fun hid => ?_⟩
    simp [hid] at hnone
  · by_cases hyx : y = x
    · rw [hyx, Env.set_self] at hy
      cases hy
      exact .inr hw
    · rw [Env.set_of_ne _ _ hyx] at hy
      cases hy

/-- A name bound after a replacement was bound before, or is bound in what comes in. -/
theorem Binds.of_replace {b : Body} {x id : Nat} {u : Term} (h : (b.replace x u).Binds id) :
    b.Binds id ∨ BoundIn id u := by
  obtain ⟨t, ht, hbound⟩ := h
  rw [replace, terms_mapTerms] at ht
  obtain ⟨t, hmem, rfl⟩ := List.mem_map.mp ht
  rw [substitute_eq] at hbound
  rcases hbound.of_subst with hbound | ⟨y, w, hy, hw⟩
  · exact .inl ⟨t, hmem, hbound⟩
  · by_cases hyx : y = x
    · rw [hyx, Env.set_self] at hy
      cases hy
      exact .inr hw
    · rw [Env.set_of_ne _ _ hyx] at hy
      cases hy

/-! ## 3. Meaning -/

mutual

/-- **What a body means** in an environment: a term, or nothing when no row matches. -/
def meaning : Body → Env → Option Term
  | .Empty, _ => none
  | .Reply value, ρ => some (subst ρ value)
  | .Local patterns _ values body, ρ =>
    match matchPatterns patterns (values.map (subst ρ)) with
    | some bs => meaning body (ρ.setAll bs)
    | none => none
  | .Match scrutinees rows, ρ => rowsMeaning rows ρ (scrutinees.map (subst ρ))

/-- **What rows mean** for values: the body of the first row that matches. -/
def rowsMeaning : List (Row Body) → Env → List Term → Option Term
  | [], _, _ => none
  | ⟨patterns, body⟩ :: rows, ρ, values =>
    match matchPatterns patterns values with
    | some bs => meaning body (ρ.setAll bs)
    | none => rowsMeaning rows ρ values

end

/-- What one row means, when it matches. -/
def rowMeaning (r : Row Body) (ρ : Env) (values : List Term) : Option (Option Term) :=
  (matchPatterns r.patterns values).map fun bs => r.body.meaning (ρ.setAll bs)

theorem rowsMeaning_cons (r : Row Body) (rows : List (Row Body)) (ρ : Env) (values : List Term) :
    rowsMeaning (r :: rows) ρ values =
      (rowMeaning r ρ values).getD (rowsMeaning rows ρ values) := by
  obtain ⟨patterns, body⟩ := r
  simp only [rowsMeaning, rowMeaning]
  cases matchPatterns patterns values <;> rfl

/-- A `let` by patterns is a match with one row. -/
theorem meaning_local (patterns : List Pattern) (quant : Quant) (values : List Term) (body : Body)
    (ρ : Env) :
    (Body.Local patterns quant values body).meaning ρ =
      rowsMeaning [⟨patterns, body⟩] ρ (values.map (subst ρ)) := by
  simp only [meaning, rowsMeaning]

/-- Rows that are changed one by one, and rows that do not match left out. -/
theorem rowsMeaning_filterMap {g : Row Body → Option (Row Body)} {rows : List (Row Body)}
    {ρ ρ' : Env} {values values' : List Term}
    (hnone : ∀ r ∈ rows, g r = none → rowMeaning r ρ values = none)
    (hsome : ∀ r ∈ rows, ∀ r', g r = some r' → rowMeaning r ρ values = rowMeaning r' ρ' values') :
    rowsMeaning rows ρ values = rowsMeaning (rows.filterMap g) ρ' values' := by
  induction rows with
  | nil => rfl
  | cons r rows ih =>
    have hrest := ih (fun s hs => hnone s (List.mem_cons_of_mem _ hs))
      fun s hs => hsome s (List.mem_cons_of_mem _ hs)
    cases hg : g r with
    | none =>
      rw [List.filterMap_cons_none hg, rowsMeaning_cons, hnone r (by simp) hg, hrest]
      rfl
    | some r' =>
      rw [List.filterMap_cons_some hg, rowsMeaning_cons, rowsMeaning_cons,
        hsome r (by simp) r' hg, hrest]

/-- Rows that are changed one by one. -/
theorem rowsMeaning_map {g : Row Body → Row Body} {rows : List (Row Body)} {ρ ρ' : Env}
    {values values' : List Term}
    (h : ∀ r ∈ rows, rowMeaning r ρ values = rowMeaning (g r) ρ' values') :
    rowsMeaning rows ρ values = rowsMeaning (rows.map g) ρ' values' := by
  rw [← List.filterMap_eq_map']
  refine rowsMeaning_filterMap (fun _ _ hnone => by cases hnone) fun r hr r' hr' => ?_
  cases hr'
  exact h r hr

/-- **The meaning looks only at the names a body uses.** -/
theorem meaning_congr {b : Body} {ρ σ : Env} (h : ∀ id, b.Uses id → ρ id = σ id) :
    b.meaning ρ = b.meaning σ := by
  induction b generalizing ρ σ with
  | Empty => rfl
  | Reply value =>
    simp only [meaning]
    rw [subst_congr fun id hid => h id ⟨value, by simp [terms], hid⟩]
  | Local patterns quant values body ih =>
    have hvalues : values.map (subst ρ) = values.map (subst σ) :=
      List.map_congr_left fun v hv => subst_congr fun id hid => h id ⟨v, by simp [terms, hv], hid⟩
    simp only [meaning, hvalues]
    cases matchPatterns patterns (values.map (subst σ)) with
    | none => rfl
    | some bs =>
      refine ih fun id hid => Env.setAll_agree bs ?_
      obtain ⟨t, ht, hfree⟩ := hid
      exact h id ⟨t, by simp [terms, ht], hfree⟩
  | Match scrutinees rows ih =>
    have hvalues : scrutinees.map (subst ρ) = scrutinees.map (subst σ) :=
      List.map_congr_left fun v hv => subst_congr fun id hid => h id ⟨v, by simp [terms, hv], hid⟩
    have hrows : rowsMeaning rows ρ (scrutinees.map (subst σ)) =
        rowsMeaning (rows.map fun r => r) σ (scrutinees.map (subst σ)) := by
      refine rowsMeaning_map fun r hr => ?_
      simp only [rowMeaning]
      congr 1
      funext bs
      refine ih r hr fun id hid => Env.setAll_agree bs ?_
      obtain ⟨t, ht, hfree⟩ := hid
      refine h id ⟨t, ?_, hfree⟩
      simp only [terms, rowsTerms_eq, List.mem_append, List.mem_flatMap]
      exact .inr ⟨r, hr, ht⟩
    simpa only [meaning, hvalues, List.map_id'] using hrows

/-- A term in which a name is replaced, in an environment. -/
theorem subst_substitute {ρ : Env} {x : Nat} {u t : Term}
    (h : ∀ id, FreeIn id u → ¬BoundIn id t) :
    subst ρ (substitute x u t) = subst (ρ.set x (subst ρ u)) t := by
  rw [substitute_eq, subst_subst]
  · refine subst_congr fun id _ => ?_
    by_cases hid : id = x
    · simp [Env.comp, hid]
    · simp [Env.comp, Env.set_of_ne _ _ hid, Env.empty]
  · intro y w id hy hw hb
    by_cases hyx : y = x
    · rw [hyx, Env.set_self] at hy
      cases hy
      exact absurd hb (h id hw)
    · rw [Env.set_of_ne _ _ hyx] at hy
      cases hy

/-- Under the names of a row, replacing `x` by `u` is still giving `x` the value of `u`. -/
theorem meaning_under {b b' : Body} {ρ : Env} {x : Nat} {u : Term} {bs : List (Nat × Term)}
    (ih : ∀ ρ : Env, b'.meaning ρ = b.meaning (ρ.set x (subst ρ u)))
    (hx : x ∉ bs.map Prod.fst) (hu : ∀ id, FreeIn id u → id ∉ bs.map Prod.fst) :
    b'.meaning (ρ.setAll bs) = b.meaning ((ρ.set x (subst ρ u)).setAll bs) := by
  have hvalue : subst (ρ.setAll bs) u = subst ρ u :=
    subst_congr fun id hid => Env.setAll_of_not_mem ρ (hu id hid)
  rw [ih, hvalue]
  refine meaning_congr fun id _ => ?_
  by_cases hid : id = x
  · rw [hid, Env.set_self, Env.setAll_of_not_mem _ hx, Env.set_self]
  · rw [Env.set_of_ne _ _ hid]
    exact Env.setAll_agree bs (Env.set_of_ne _ _ hid).symm

/-- **Replacing a name in a body** gives the name a value, when the body neither binds the name in
a pattern nor binds anything that comes in. -/
theorem meaning_replace {b : Body} {ρ : Env} {x : Nat} {u : Term} (hx : x ∉ b.names)
    (hu : ∀ id, FreeIn id u → id ∉ b.names ∧ ¬b.Binds id) :
    (b.replace x u).meaning ρ = b.meaning (ρ.set x (subst ρ u)) := by
  induction b generalizing ρ with
  | Empty => rfl
  | Reply value =>
    simp only [replace, mapTerms, meaning]
    rw [subst_substitute fun id hid hb => (hu id hid).2 ⟨value, by simp [terms], hb⟩]
  | Local patterns quant values body ih =>
    simp only [names, List.mem_append, not_or] at hx hu
    have hvalues : (values.map (substitute x u)).map (subst ρ) =
        values.map (subst (ρ.set x (subst ρ u))) := by
      rw [List.map_map]
      refine List.map_congr_left fun v hv => subst_substitute fun id hid hb => (hu id hid).2 ?_
      exact ⟨v, by simp [terms, hv], hb⟩
    simp only [replace, mapTerms, meaning, hvalues]
    cases hbs : matchPatterns patterns (values.map (subst (ρ.set x (subst ρ u)))) with
    | none => rfl
    | some bs =>
      refine meaning_under (fun ρ => ih hx.2 fun id hid => ⟨(hu id hid).1.2, ?_⟩) ?_ ?_
      · rintro ⟨t, ht, hb⟩
        exact (hu id hid).2 ⟨t, by simp [terms, ht], hb⟩
      · rw [matchPatterns_ids hbs]
        exact hx.1
      · rw [matchPatterns_ids hbs]
        exact fun id hid => (hu id hid).1.1
  | Match scrutinees rows ih =>
    simp only [names, rowsNames_eq, List.mem_flatMap, List.mem_append, not_exists, not_and,
      not_or] at hx hu
    have hvalues : (scrutinees.map (substitute x u)).map (subst ρ) =
        scrutinees.map (subst (ρ.set x (subst ρ u))) := by
      rw [List.map_map]
      refine List.map_congr_left fun v hv => subst_substitute fun id hid hb => (hu id hid).2 ?_
      exact ⟨v, by simp [terms, hv], hb⟩
    simp only [replace, mapTerms, mapRows_eq, meaning, hvalues]
    refine (rowsMeaning_map fun r hr => ?_).symm
    simp only [rowMeaning]
    cases hbs : matchPatterns r.patterns _ with
    | none => rfl
    | some bs =>
      refine congrArg some (Eq.symm ?_)
      refine meaning_under
        (fun ρ => ih r hr (hx r hr).2 fun id hid => ⟨((hu id hid).1 r hr).2, ?_⟩) ?_ ?_
      · rintro ⟨t, ht, hb⟩
        refine (hu id hid).2 ⟨t, ?_, hb⟩
        simp only [terms, rowsTerms_eq, List.mem_append, List.mem_flatMap]
        exact .inr ⟨r, hr, ht⟩
      · rw [matchPatterns_ids hbs]
        exact (hx r hr).1
      · rw [matchPatterns_ids hbs]
        exact fun id hid => ((hu id hid).1 r hr).1

end Body

end TeamyBend.Syntax
