/-
# Names apart

The parser gives every binder its own number.  `Body.Good` says what match compilation needs of
that: the names of a row are used only in the row's own body, no body binds them again, and no
scrutinee uses them.  It also says that constructors keep their arities.

While a match is compiled, the names of a column that has been split are variables of the match,
and a row may carry such a variable as its pattern.  So the invariant of a match state counts as
`foreign` only the names that are not the scrutinee of their own column.  Section 4 shows that every
step of the compiler keeps the invariant.
-/
import TeamyBend.Syntax.Meaning

namespace TeamyBend.Syntax

open Kernel

/-! ## 1. Well-formed bodies -/

mutual

/-- Constructors of the pattern have as many fields as their arity. -/
def Pattern.Fits (arity : String → Nat) : Pattern → Prop
  | .Variable _ => True
  | .Constructor name fields => fields.length = arity name ∧ FitAll arity fields

/-- The same of patterns. -/
def FitAll (arity : String → Nat) : List Pattern → Prop
  | [] => True
  | p :: ps => p.Fits arity ∧ FitAll arity ps

end

theorem fitAll_append {arity : String → Nat} {ps qs : List Pattern} :
    FitAll arity (ps ++ qs) ↔ FitAll arity ps ∧ FitAll arity qs := by
  induction ps with
  | nil => simp [FitAll]
  | cons p ps ih => simp [FitAll, ih, and_assoc]

theorem fitAll_variables (arity : String → Nat) (vs : List Variable) :
    FitAll arity (vs.map .Variable) := by
  induction vs with
  | nil => trivial
  | cons v vs ih => exact ⟨trivial, ih⟩

/-- **The names of the rows are kept apart**, where `names` gives the names of a row. -/
structure Separate (names : Row Body → List Nat) (scrutinees : List Term)
    (rows : List (Row Body)) : Prop where
  /-- A row binds no name twice. -/
  linear : ∀ r ∈ rows, (names r).Nodup
  /-- Two rows share no name, and neither body uses a name of the other row. -/
  apart : rows.Pairwise fun r s => ∀ x, (x ∈ names r → x ∉ names s ∧ ¬s.body.Uses x) ∧
    (x ∈ names s → ¬r.body.Uses x)
  /-- No body binds a name of a row again. -/
  quiet : ∀ r ∈ rows, ∀ x ∈ names r, ∀ s ∈ rows, ¬s.body.Binds x ∧ x ∉ s.body.names
  /-- No scrutinee uses a name of a row. -/
  unused : ∀ r ∈ rows, ∀ x ∈ names r, ∀ t ∈ scrutinees, ¬FreeIn x t

/-- Rows as wide as the scrutinees, with patterns that fit. -/
def Wide (arity : String → Nat) (width : Nat) (rows : List (Row Body)) : Prop :=
  ∀ r ∈ rows, r.patterns.length = width ∧ FitAll arity r.patterns

namespace Body

mutual

/-- **Well-formed bodies.** -/
def Good (arity : String → Nat) : Body → Prop
  | .Empty => True
  | .Reply _ => True
  | .Local patterns _ values body =>
    Wide arity values.length [⟨patterns, body⟩] ∧
      Separate (fun r => idsAll r.patterns) values [⟨patterns, body⟩] ∧
      (∀ v ∈ values, ∀ id, FreeIn id v → id ∉ body.names) ∧ Good arity body
  | .Match scrutinees rows =>
    Wide arity scrutinees.length rows ∧ Separate (fun r => idsAll r.patterns) scrutinees rows ∧
      RowsGood arity rows

/-- Rows with well-formed bodies. -/
def RowsGood (arity : String → Nat) : List (Row Body) → Prop
  | [] => True
  | ⟨_, body⟩ :: rows => Good arity body ∧ RowsGood arity rows

end

theorem rowsGood_iff {arity : String → Nat} {rows : List (Row Body)} :
    RowsGood arity rows ↔ ∀ r ∈ rows, r.body.Good arity := by
  induction rows with
  | nil => simp [RowsGood]
  | cons r rows ih => simp [RowsGood, ih]

/-- The number occurs in the body. -/
def Mentions (b : Body) (id : Nat) : Prop := b.Uses id ∨ b.Binds id ∨ id ∈ b.names

end Body

/-! ## 2. Rows that are changed one by one -/

/-- What a changed row may have: no new names, and only the names of `more` used newly. -/
structure Changed (more : Nat → Prop) (names names' : Row Body → List Nat) (r r' : Row Body) :
    Prop where
  sub : ∀ x ∈ names' r', x ∈ names r
  linear : (names' r').Nodup
  uses : ∀ x, r'.body.Uses x → r.body.Uses x ∨ more x
  binds : ∀ x, r'.body.Binds x → r.body.Binds x
  bodyNames : r'.body.names = r.body.names
  fresh : ∀ x ∈ names' r', ¬more x

/-- Separate rows stay separate when each is changed or left out. -/
theorem Separate.filterMap {names names' : Row Body → List Nat} {ss ss' : List Term}
    {rows : List (Row Body)} {g : Row Body → Option (Row Body)} (more : Nat → Prop)
    (h : Separate names ss rows)
    (hg : ∀ r ∈ rows, ∀ r', g r = some r' → Changed more names names' r r')
    (hss : ∀ r ∈ rows, ∀ r', g r = some r' → ∀ x ∈ names' r', ∀ t ∈ ss', ¬FreeIn x t) :
    Separate names' ss' (rows.filterMap g) where
  linear := by
    intro r' hr'
    obtain ⟨r, hr, hgr⟩ := List.mem_filterMap.mp hr'
    exact (hg r hr r' hgr).linear
  apart := by
    refine List.pairwise_filterMap.mpr (h.apart.imp_of_mem fun {r s} hr hs hrs => ?_)
    intro r' hr' s' hs' x
    have cr := hg r hr r' hr'
    have cs := hg s hs s' hs'
    refine ⟨fun hx => ⟨fun hx' => ?_, fun hu => ?_⟩, fun hx hu => ?_⟩
    · exact ((hrs x).1 (cr.sub x hx)).1 (cs.sub x hx')
    · rcases cs.uses x hu with hu | hu
      · exact ((hrs x).1 (cr.sub x hx)).2 hu
      · exact cr.fresh x hx hu
    · rcases cr.uses x hu with hu | hu
      · exact (hrs x).2 (cs.sub x hx) hu
      · exact cs.fresh x hx hu
  quiet := by
    intro r' hr' x hx s' hs'
    obtain ⟨r, hr, hgr⟩ := List.mem_filterMap.mp hr'
    obtain ⟨s, hs, hgs⟩ := List.mem_filterMap.mp hs'
    obtain ⟨hb, hn⟩ := h.quiet r hr x ((hg r hr r' hgr).sub x hx) s hs
    have cs := hg s hs s' hgs
    exact ⟨fun hb' => hb (cs.binds x hb'), by rwa [cs.bodyNames]⟩
  unused := by
    intro r' hr' x hx t ht
    obtain ⟨r, hr, hgr⟩ := List.mem_filterMap.mp hr'
    exact hss r hr r' hgr x hx t ht

/-- The same when every row is changed. -/
theorem Separate.map {names names' : Row Body → List Nat} {ss ss' : List Term}
    {rows : List (Row Body)} {g : Row Body → Row Body} (more : Nat → Prop)
    (h : Separate names ss rows) (hg : ∀ r ∈ rows, Changed more names names' r (g r))
    (hss : ∀ r ∈ rows, ∀ x ∈ names' (g r), ∀ t ∈ ss', ¬FreeIn x t) :
    Separate names' ss' (rows.map g) := by
  have hmap : Separate names' ss' (rows.filterMap fun r => some (g r)) := by
    refine h.filterMap more ?_ ?_
    · rintro r hr _ ⟨rfl⟩
      exact hg r hr
    · rintro r hr _ ⟨rfl⟩
      exact hss r hr
  rwa [List.filterMap_eq_map'] at hmap

/-! ## 3. Foreign names -/

/-- The pattern is the variable that it is matched with. -/
def own (t : Term) : Pattern → Bool
  | .Variable v => isVar t v
  | .Constructor _ _ => false

/-- The names of a row that are not variables of the match. -/
def foreign : List Term → List Pattern → List Nat
  | t :: ts, p :: ps => (if own t p then [] else p.ids) ++ foreign ts ps
  | _, ps => idsAll ps

theorem isVar_iff {t : Term} {v : Variable} : isVar t v ↔ ∃ name, t = .Var name v.id := by
  cases t <;> simp [isVar]

theorem isVar_term (v : Variable) : isVar v.term v := by simp [isVar, Variable.term]

theorem foreign_sublist (ts : List Term) (ps : List Pattern) :
    (foreign ts ps).Sublist (idsAll ps) := by
  induction ps generalizing ts with
  | nil => cases ts <;> exact List.Sublist.refl _
  | cons p ps ih =>
    cases ts with
    | nil => exact List.Sublist.refl _
    | cons t ts =>
      simp only [foreign, idsAll]
      refine List.Sublist.append ?_ (ih ts)
      split
      · exact List.nil_sublist _
      · exact List.Sublist.refl _

theorem foreign_sub {ts : List Term} {ps : List Pattern} {x : Nat} (h : x ∈ foreign ts ps) :
    x ∈ idsAll ps := (foreign_sublist ts ps).subset h

/-- A name of the patterns is foreign, or some scrutinee uses it. -/
theorem foreign_or_used (ts : List Term) {ps : List Pattern} {x : Nat} (h : x ∈ idsAll ps) :
    x ∈ foreign ts ps ∨ ∃ t ∈ ts, FreeIn x t := by
  induction ps generalizing ts with
  | nil => cases h
  | cons p ps ih =>
    cases ts with
    | nil => exact .inl h
    | cons t ts =>
      simp only [idsAll, List.mem_append] at h
      simp only [foreign, List.mem_append]
      rcases h with h | h
      · cases hown : own t p with
        | false => exact .inl (.inl h)
        | true =>
          cases p with
          | Constructor name fields => cases hown
          | Variable v =>
            obtain ⟨name, rfl⟩ := isVar_iff.mp hown
            simp only [Pattern.ids, List.mem_singleton] at h
            subst h
            exact .inr ⟨.Var name v.id, by simp, .var⟩
      · rcases ih ts h with h | ⟨u, hu, hfree⟩
        · exact .inl (.inr h)
        · exact .inr ⟨u, List.mem_cons_of_mem _ hu, hfree⟩

/-- Names that no scrutinee uses are foreign. -/
theorem foreign_eq {ts : List Term} {ps : List Pattern}
    (h : ∀ x ∈ idsAll ps, ∀ t ∈ ts, ¬FreeIn x t) : foreign ts ps = idsAll ps := by
  induction ps generalizing ts with
  | nil => cases ts <;> rfl
  | cons p ps ih =>
    cases ts with
    | nil => rfl
    | cons t ts =>
      have hown : own t p = false := by
        cases p with
        | Constructor name fields => rfl
        | Variable v =>
          rw [own, Bool.eq_false_iff]
          intro hv
          obtain ⟨name, rfl⟩ := isVar_iff.mp hv
          exact h v.id (by simp [idsAll, Pattern.ids]) (.Var name v.id) (by simp) .var
      have hrest := ih fun x hx t' ht' => h x (by simp [idsAll, hx]) t' (List.mem_cons_of_mem _ ht')
      simp [foreign, idsAll, hown, hrest]

theorem foreign_append {ts us : List Term} {ps qs : List Pattern} (h : ts.length = ps.length) :
    foreign (ts ++ us) (ps ++ qs) = foreign ts ps ++ foreign us qs := by
  induction ps generalizing ts with
  | nil =>
    obtain rfl := List.length_eq_zero_iff.mp h
    cases us <;> cases qs <;> simp [foreign, idsAll]
  | cons p ps ih =>
    cases ts with
    | nil => simp at h
    | cons t ts => simp [foreign, ih (by simpa using h)]

/-- A column of variables that match themselves has no foreign name. -/
theorem foreign_own (vs : List Variable) :
    foreign (vs.map Variable.term) (vs.map .Variable) = [] := by
  induction vs with
  | nil => rfl
  | cons v vs ih => simp [foreign, own, isVar_term, ih]

/-- **Names that are not foreign** match the value they already have. -/
theorem matchPatterns_own {ρ : Env} {ts : List Term} {ps : List Pattern}
    {bs : List (Nat × Term)} (h : matchPatterns ps (ts.map (subst ρ)) = some bs)
    {x : Nat} {w : Term} (hx : (x, w) ∈ bs) (hforeign : x ∉ foreign ts ps) :
    ∃ name, w = subst ρ (.Var name x) := by
  induction ps generalizing ts bs with
  | nil =>
    cases ts with
    | nil =>
      cases h
      cases hx
    | cons t ts => cases h
  | cons p ps ih =>
    cases ts with
    | nil => cases h
    | cons t ts =>
      obtain ⟨b, b', hp, hps, rfl⟩ := matchPatterns_cons_some.mp h
      simp only [foreign, List.mem_append, not_or] at hforeign
      rcases List.mem_append.mp hx with hx | hx
      · cases hown : own t p with
        | true =>
          cases p with
          | Constructor name fields => cases hown
          | Variable v =>
            obtain ⟨name, rfl⟩ := isVar_iff.mp hown
            simp only [matchPattern, Option.some.injEq] at hp
            rw [← hp, List.mem_singleton, Prod.mk.injEq] at hx
            exact ⟨name, by rw [hx.1, hx.2]⟩
        | false =>
          refine absurd ?_ hforeign.1
          rw [hown, ← matchPattern_ids hp]
          exact List.mem_map_of_mem hx
      · exact ih hps hx hforeign.2

/-- After a match, a name that is not foreign still has its value. -/
theorem setAll_own {ρ : Env} {ts : List Term} {ps : List Pattern} {bs : List (Nat × Term)}
    (h : matchPatterns ps (ts.map (subst ρ)) = some bs) {x : Nat} {v : Term}
    (hforeign : x ∉ foreign ts ps) (hv : ρ x = some v) : ρ.setAll bs x = some v := by
  have hown : ∀ w, (x, w) ∈ bs → w = v := by
    intro w hw
    obtain ⟨name, rfl⟩ := matchPatterns_own h hw hforeign
    simp [subst, hv]
  clear h hforeign
  induction bs with
  | nil => exact hv
  | cons b bs ih =>
    by_cases hx : x = b.1
    · have : b.2 = v := hown b.2 (by simp [hx])
      rw [Env.setAll, hx, Env.set_self, this]
    · rw [Env.setAll, Env.set_of_ne _ _ hx]
      exact ih fun w hw => hown w (List.mem_cons_of_mem _ hw)

/-! ## 4. The invariant of a match -/

/-- The numbers of variables. -/
abbrev idsOf (vars : List Variable) : List Nat := vars.map Variable.id

/-- The number occurs in the match state. -/
def MatchState.Mentions (st : MatchState) (x : Nat) : Prop :=
  x ∈ idsOf st.vars ∨ (∃ t ∈ st.scrutinees, FreeIn x t) ∨
    ∃ r ∈ st.rows, x ∈ idsAll r.patterns ∨ r.body.Mentions x

/-- The foreign names of a row of the match. -/
def MatchState.foreignOf (st : MatchState) (r : Row Body) : List Nat :=
  foreign st.scrutinees r.patterns

/-- **The invariant of a match state**: its numbers are below `n`, its rows are separate, and its
variables are bound nowhere else. -/
structure MatchState.Inv (arity : String → Nat) (n : Nat) (st : MatchState) : Prop where
  nodup : (idsOf st.vars).Nodup
  wide : Wide arity st.scrutinees.length st.rows
  good : ∀ r ∈ st.rows, r.body.Good arity
  separate : Separate st.foreignOf st.scrutinees st.rows
  quiet : ∀ x ∈ idsOf st.vars, ∀ r ∈ st.rows, ¬r.body.Binds x ∧ x ∉ r.body.names
  new : ∀ r ∈ st.rows, ∀ x ∈ st.foreignOf r, x ∉ idsOf st.vars
  below : ∀ x, st.Mentions x → x < n

/-- **The invariant of a body** under variables. -/
structure BodyInv (arity : String → Nat) (n : Nat) (vars : List Variable) (b : Body) : Prop where
  nodup : (idsOf vars).Nodup
  good : b.Good arity
  quiet : ∀ x ∈ idsOf vars, ¬b.Binds x ∧ x ∉ b.names
  below : ∀ x, x ∈ idsOf vars ∨ b.Mentions x → x < n

theorem MatchState.Inv.mono {arity : String → Nat} {n m : Nat} {st : MatchState}
    (h : st.Inv arity n) (hnm : n ≤ m) : st.Inv arity m :=
  { h with below := fun x hx => Nat.lt_of_lt_of_le (h.below x hx) hnm }

/-- A match starts with separate rows. -/
theorem MatchState.Inv.start {arity : String → Nat} {n : Nat} {st : MatchState}
    (hnodup : (idsOf st.vars).Nodup) (hwide : Wide arity st.scrutinees.length st.rows)
    (hgood : ∀ r ∈ st.rows, r.body.Good arity)
    (hsep : Separate (fun r => idsAll r.patterns) st.scrutinees st.rows)
    (hquiet : ∀ x ∈ idsOf st.vars, ∀ r ∈ st.rows,
      x ∉ idsAll r.patterns ∧ ¬r.body.Binds x ∧ x ∉ r.body.names)
    (hbelow : ∀ x, st.Mentions x → x < n) : st.Inv arity n where
  nodup := hnodup
  wide := hwide
  good := hgood
  separate := by
    have hkeep : Separate st.foreignOf st.scrutinees (st.rows.map fun r => r) := by
      refine hsep.map (fun _ => False) (fun r hr => ?_) fun r hr x hx => ?_
      · have heq : st.foreignOf r = idsAll r.patterns := foreign_eq (hsep.unused r hr)
        exact ⟨fun x hx => heq ▸ hx, heq ▸ hsep.linear r hr, fun x hx => .inl hx, fun x hx => hx,
          rfl, fun _ _ h => h⟩
      · exact hsep.unused r hr x (foreign_sub hx)
    rwa [List.map_id'] at hkeep
  quiet := fun x hx r hr => (hquiet x hx r hr).2
  new := fun r hr x hx hvar => (hquiet x hvar r hr).1 (foreign_sub hx)
  below := hbelow

namespace BodyInv

variable {arity : String → Nat} {n : Nat} {vars : List Variable}

/-- A match under variables. -/
theorem match_ {scrutinees : List Term} {rows : List (Row Body)}
    (h : BodyInv arity n vars (.Match scrutinees rows)) :
    MatchState.Inv arity n ⟨scrutinees, rows, vars⟩ := by
  obtain ⟨hnodup, ⟨hwide, hsep, hgood⟩, hquiet, hbelow⟩ := h
  have hterms : ∀ t, t ∈ (Body.Match scrutinees rows).terms ↔
      t ∈ scrutinees ∨ ∃ r ∈ rows, t ∈ r.body.terms := by simp [Body.terms]
  have hnames : ∀ x, x ∈ (Body.Match scrutinees rows).names ↔
      ∃ r ∈ rows, x ∈ idsAll r.patterns ∨ x ∈ r.body.names := by simp [Body.names]
  refine .start hnodup hwide (Body.rowsGood_iff.mp hgood) hsep (fun x hx r hr => ?_) ?_
  · obtain ⟨hb, hn⟩ := hquiet x hx
    refine ⟨fun hp => hn ?_, ?_, fun hr' => hn ?_⟩
    · exact (hnames x).mpr ⟨r, hr, .inl hp⟩
    · rintro ⟨t, ht, hbound⟩
      exact hb ⟨t, (hterms t).mpr (.inr ⟨r, hr, ht⟩), hbound⟩
    · exact (hnames x).mpr ⟨r, hr, .inr hr'⟩
  · rintro x (hx | ⟨t, ht, hfree⟩ | ⟨r, hr, hp | ⟨t, ht, hfree⟩ | ⟨t, ht, hbound⟩ | hname⟩)
    · exact hbelow x (.inl hx)
    · exact hbelow x (.inr (.inl ⟨t, (hterms t).mpr (.inl ht), hfree⟩))
    · exact hbelow x (.inr (.inr (.inr ((hnames x).mpr ⟨r, hr, .inl hp⟩))))
    · exact hbelow x (.inr (.inl ⟨t, (hterms t).mpr (.inr ⟨r, hr, ht⟩), hfree⟩))
    · exact hbelow x (.inr (.inr (.inl ⟨t, (hterms t).mpr (.inr ⟨r, hr, ht⟩), hbound⟩)))
    · exact hbelow x (.inr (.inr (.inr ((hnames x).mpr ⟨r, hr, .inr hname⟩))))

/-- A `let` by a constructor pattern is a match with one row. -/
theorem destructure {patterns : List Pattern} {quant : Quant} {values : List Term} {inner : Body}
    (h : BodyInv arity n vars (.Local patterns quant values inner)) :
    MatchState.Inv arity n ⟨values, [⟨patterns, inner⟩], vars⟩ := by
  obtain ⟨hnodup, ⟨hwide, hsep, -, hgood⟩, hquiet, hbelow⟩ := h
  refine .start hnodup hwide ?_ hsep (fun x hx r hr => ?_) ?_
  · simpa using hgood
  · obtain rfl := List.mem_singleton.mp hr
    obtain ⟨hb, hn⟩ := hquiet x hx
    simp only [Body.names, List.mem_append, not_or] at hn
    refine ⟨hn.1, ?_, hn.2⟩
    rintro ⟨t, ht, hbound⟩
    exact hb ⟨t, by simp [Body.terms, ht], hbound⟩
  · rintro x (hx | ⟨t, ht, hfree⟩ | ⟨r, hr, hrow⟩)
    · exact hbelow x (.inl hx)
    · exact hbelow x (.inr (.inl ⟨t, by simp [Body.terms, show t ∈ values from ht], hfree⟩))
    · obtain rfl := List.mem_singleton.mp hr
      rcases hrow with hp | ⟨t, ht, hfree⟩ | ⟨t, ht, hbound⟩ | hname
      · exact hbelow x (.inr (.inr (.inr (by simp [Body.names, hp]))))
      · exact hbelow x (.inr (.inl ⟨t, by simp [Body.terms, ht], hfree⟩))
      · exact hbelow x (.inr (.inr (.inl ⟨t, by simp [Body.terms, ht], hbound⟩)))
      · exact hbelow x (.inr (.inr (.inr (by simp [Body.names, hname]))))

/-- The body of a `let` of names. -/
theorem local_ {bindings : List Variable} {quant : Quant} {values : List Term} {inner : Body}
    (h : BodyInv arity n vars (.Local (bindings.map .Variable) quant values inner)) :
    BodyInv arity n bindings inner := by
  obtain ⟨-, ⟨-, hsep, -, hgood⟩, -, hbelow⟩ := h
  have hids : idsAll (bindings.map .Variable) = idsOf bindings := idsAll_variables bindings
  refine ⟨?_, hgood, fun x hx => ?_, fun x hx => hbelow x ?_⟩
  · simpa [hids] using hsep.linear ⟨bindings.map .Variable, inner⟩ (by simp)
  · have hx' : x ∈ idsAll (bindings.map .Variable) := hids ▸ hx
    exact hsep.quiet ⟨bindings.map .Variable, inner⟩ (by simp) x hx'
      ⟨bindings.map .Variable, inner⟩ (by simp)
  · rcases hx with hx | ⟨t, ht, hfree⟩ | ⟨t, ht, hbound⟩ | hname
    · exact .inr (.inr (.inr (by simp only [Body.names, hids, List.mem_append, hx, true_or])))
    · exact .inr (.inl ⟨t, by simp [Body.terms, ht], hfree⟩)
    · exact .inr (.inr (.inl ⟨t, by simp [Body.terms, ht], hbound⟩))
    · exact .inr (.inr (.inr (by simp [Body.names, hname])))

end BodyInv

namespace MatchState.Inv

variable {arity : String → Nat} {n : Nat} {st : MatchState}

/-- The body of a row. -/
theorem row (h : st.Inv arity n) {r : Row Body} (hr : r ∈ st.rows) :
    BodyInv arity n st.vars r.body where
  nodup := h.nodup
  good := h.good r hr
  quiet := fun x hx => h.quiet x hx r hr
  below := by
    rintro x (hx | hx)
    · exact h.below x (.inl hx)
    · exact h.below x (.inr (.inr ⟨r, hr, .inr hx⟩))

/-- A variable that is passed over. -/
theorem skip (h : st.Inv arity n) : ({ st with vars := st.vars.tail }).Inv arity n := by
  have hsub : ∀ x, x ∈ idsOf st.vars.tail → x ∈ idsOf st.vars := fun x hx => by
    rw [idsOf, List.map_tail] at hx
    exact List.mem_of_mem_tail hx
  exact {
    nodup := by
      rw [idsOf, List.map_tail]
      exact h.nodup.sublist (List.tail_sublist _)
    wide := h.wide
    good := h.good
    separate := h.separate
    quiet := fun x hx => h.quiet x (hsub x hx)
    new := fun r hr x hx hvar => h.new r hr x hx (hsub x hvar)
    below := fun x hx => h.below x (hx.imp_left (hsub x)) }

end MatchState.Inv

/-! ## 5. Replacing in the rows -/

theorem not_boundIn_term (v : Variable) (x : Nat) : ¬BoundIn x v.term := not_boundIn_var

theorem freeIn_term {v : Variable} {x : Nat} (h : FreeIn x v.term) : x = v.id := freeIn_var.mp h

/-- A well-formed body stays so under a replacement that it does not catch. -/
theorem Body.Good.replace {arity : String → Nat} {b : Body} {x : Nat} {u : Term}
    (h : b.Good arity) (hfree : ∀ id, FreeIn id u → id ∉ b.names)
    (hbound : ∀ id, ¬BoundIn id u) : (b.replace x u).Good arity := by
  have huses : ∀ {t : Term} {id : Nat},
      FreeIn id (substitute x u t) → FreeIn id t ∨ FreeIn id u := by
    intro t id hid
    have hid' : (Body.replace (.Reply t) x u).Uses id :=
      ⟨_, by simp [Body.replace, mapTerms, terms], hid⟩
    rcases hid'.of_replace with ⟨⟨s, hs, hfree⟩, _⟩ | hfree
    · simp only [Body.terms, List.mem_singleton] at hs
      exact .inl (hs ▸ hfree)
    · exact .inr hfree
  have hrows : ∀ {ss : List Term} {rows : List (Row Body)},
      (∀ id, FreeIn id u → ∀ r ∈ rows, id ∉ idsAll r.patterns) →
      Separate (fun r => idsAll r.patterns) ss rows →
      Separate (fun r => idsAll r.patterns) (ss.map (substitute x u))
        (rows.map fun r => { r with body := r.body.replace x u }) := by
    intro ss rows hids hsep
    refine hsep.map (fun id => FreeIn id u) (fun r hr => ?_) ?_
    · exact {
        sub := fun y hy => hy
        linear := hsep.linear r hr
        uses := fun y hy => hy.of_replace.imp_left And.left
        binds := fun y hy => hy.of_replace.resolve_right (hbound y)
        bodyNames := Body.names_replace _ _ _
        fresh := fun y hy hu => hids y hu r hr hy }
    · intro r hr y hy t ht hf
      obtain ⟨s, hs, rfl⟩ := List.mem_map.mp ht
      rcases huses hf with hf | hf
      · exact hsep.unused r hr y hy s hs hf
      · exact hids y hf r hr hy
  induction b with
  | Empty => trivial
  | Reply value => trivial
  | Local patterns quant values body ih =>
    obtain ⟨hwide, hsep, hvalues, hgood⟩ := h
    simp only [Body.names, List.mem_append, not_or] at hfree
    refine ⟨?_, ?_, ?_, ih hgood fun id hid => (hfree id hid).2⟩
    · simpa [Wide] using hwide
    · refine hrows (fun id hid r hr => ?_) hsep
      obtain rfl := List.mem_singleton.mp hr
      exact (hfree id hid).1
    · intro v hv id hid
      obtain ⟨w, hw, rfl⟩ := List.mem_map.mp hv
      rw [Body.names_mapTerms]
      rcases huses hid with hid | hid
      · exact hvalues w hw id hid
      · exact (hfree id hid).2
  | Match scrutinees rows ih =>
    obtain ⟨hwide, hsep, hgood⟩ := h
    simp only [Body.names, Body.rowsNames_eq, List.mem_flatMap, List.mem_append, not_exists,
      not_and, not_or] at hfree
    simp only [Body.replace, Body.mapTerms, Body.mapRows_eq]
    refine ⟨?_, hrows (fun id hid r hr => (hfree id hid r hr).1) hsep, ?_⟩
    · intro r hr
      obtain ⟨r, hmem, rfl⟩ := List.mem_map.mp hr
      simpa using hwide r hmem
    · refine Body.rowsGood_iff.mpr fun r hr => ?_
      obtain ⟨r, hmem, rfl⟩ := List.mem_map.mp hr
      exact ih r hmem (Body.rowsGood_iff.mp hgood r hmem) fun id hid => (hfree id hid r hmem).2

end TeamyBend.Syntax
