/-
# One column of a match

What one step of `flatten_match_step` does to the rows, and that it keeps the invariant of the match
state.  A column without constructors is dropped.  A column with one is split: the rows for the arm
get columns for the fields, and the rows for the fallback stay as they are.
-/
import TeamyBend.Syntax.Apart
import Mathlib.Data.List.Pairwise

namespace TeamyBend.Syntax

open Kernel

/-! ## 1. Rows of the same match -/

/-- What a row names, no other row names or uses. -/
theorem Separate.other {names : Row Body → List Nat} {ss : List Term} {rows : List (Row Body)}
    (h : Separate names ss rows) {r s : Row Body} (hr : r ∈ rows) (hs : s ∈ rows) (hne : r ≠ s)
    {x : Nat} (hx : x ∈ names r) : x ∉ names s ∧ ¬s.body.Uses x := by
  have hsymm : Std.Symm fun r s : Row Body =>
      ∀ x, (x ∈ names r → x ∉ names s ∧ ¬s.body.Uses x) ∧ (x ∈ names s → ¬r.body.Uses x) :=
    ⟨fun a b hab y => ⟨fun hy => ⟨fun hya => ((hab y).1 hya).1 hy, (hab y).2 hy⟩,
      fun hy => ((hab y).1 hy).2⟩⟩
  exact (h.apart.forall hr hs hne x).1 hx

/-! ## 2. A column without constructors -/

/-- Every row starts with a variable. -/
def Variables (rows : List (Row Body)) : Prop :=
  ∀ r ∈ rows, ∃ p ps, r.patterns = .Variable p :: ps

theorem headConstructor_none {rows : List (Row Body)} (h : headConstructor rows = .ok none) :
    Variables rows := by
  induction rows with
  | nil => exact fun _ hr => by cases hr
  | cons r rows ih =>
    unfold headConstructor at h
    split at h
    · cases h
    · cases h
    · rename_i p ps hps
      intro s hs
      rcases List.mem_cons.mp hs with rfl | hs
      · exact ⟨p, ps, hps⟩
      · exact ih h s hs

theorem headConstructor_some {rows : List (Row Body)} {name : String} {fields : List Pattern}
    (h : headConstructor rows = .ok (some (name, fields))) :
    ∃ r ∈ rows, ∃ ps, r.patterns = .Constructor name fields :: ps := by
  induction rows with
  | nil => cases h
  | cons r rows ih =>
    unfold headConstructor at h
    split at h
    · cases h
    · rename_i ps hps
      cases h
      exact ⟨r, by simp, ps, hps⟩
    · obtain ⟨s, hs, hps⟩ := ih h
      exact ⟨s, List.mem_cons_of_mem _ hs, hps⟩

/-- A row after its column is dropped. -/
theorem dropColumn_changed {v p : Variable} {t : Term} {ss : List Term} {ps : List Pattern}
    {r : Row Body} (hps : r.patterns = .Variable p :: ps)
    (hlinear : (foreign (t :: ss) r.patterns).Nodup)
    (hv : v.id ∉ foreign (t :: ss) r.patterns) :
    Changed (· = v.id) (fun r => foreign (t :: ss) r.patterns) (fun r => foreign ss r.patterns) r
      (dropColumn v r) := by
  have hdrop : dropColumn v r = ⟨ps, r.body.replace p.id v.term⟩ := by simp [dropColumn, hps]
  have hsub : (foreign ss ps).Sublist (foreign (t :: ss) r.patterns) := by
    rw [hps, foreign]
    exact List.sublist_append_right _ _
  rw [hdrop]
  exact {
    sub := fun x hx => hsub.subset hx
    linear := hlinear.sublist hsub
    uses := fun x hx => hx.of_replace.imp And.left freeIn_term
    binds := fun x hx => hx.of_replace.resolve_right (not_boundIn_term v x)
    bodyNames := Body.names_replace _ _ _
    fresh := fun x hx hxv => hv (hxv ▸ hsub.subset hx) }

theorem dropColumn_ids {v : Variable} {r : Row Body} {x : Nat}
    (hx : x ∈ idsAll (dropColumn v r).patterns) : x ∈ idsAll r.patterns := by
  unfold dropColumn at hx
  split at hx
  · rename_i p ps hps
    simp [hps, idsAll, hx]
  · exact hx

theorem dropColumn_names (v : Variable) (r : Row Body) :
    (dropColumn v r).body.names = r.body.names := by
  unfold dropColumn
  split
  · exact Body.names_replace _ _ _
  · rfl

/-- **Dropping a column** keeps the invariant. -/
theorem MatchState.Inv.column {arity : String → Nat} {n : Nat} {t : Term} {ss : List Term}
    {rows : List (Row Body)} {vars : List Variable} {v : Variable}
    (h : MatchState.Inv arity n ⟨t :: ss, rows, vars⟩) (hv : v ∈ vars) (hrows : Variables rows) :
    MatchState.Inv arity n ⟨ss, rows.map (dropColumn v), vars⟩ := by
  have hvid : v.id ∈ idsOf vars := List.mem_map_of_mem hv
  have hchanged : ∀ r ∈ rows, Changed (· = v.id) (fun r => foreign (t :: ss) r.patterns)
      (fun r => foreign ss r.patterns) r (dropColumn v r) := by
    intro r hr
    obtain ⟨p, ps, hps⟩ := hrows r hr
    exact dropColumn_changed hps (h.separate.linear r hr) fun hx => h.new r hr _ hx hvid
  exact {
    nodup := h.nodup
    wide := by
      intro r' hr'
      obtain ⟨r, hr, rfl⟩ := List.mem_map.mp hr'
      obtain ⟨p, ps, hps⟩ := hrows r hr
      obtain ⟨hlen, hfits⟩ := h.wide r hr
      rw [hps] at hlen hfits
      simp only [dropColumn, hps]
      exact ⟨by simpa using hlen, hfits.2⟩
    good := by
      intro r' hr'
      obtain ⟨r, hr, rfl⟩ := List.mem_map.mp hr'
      obtain ⟨p, ps, hps⟩ := hrows r hr
      simp only [dropColumn, hps]
      refine (h.good r hr).replace (fun id hid => ?_) (not_boundIn_term v)
      rw [freeIn_term hid]
      exact (h.quiet _ hvid r hr).2
    separate := by
      refine h.separate.map _ hchanged fun r hr x hx u hu => ?_
      exact h.separate.unused r hr x ((hchanged r hr).sub x hx) u (List.mem_cons_of_mem _ hu)
    quiet := by
      intro x hx r' hr'
      obtain ⟨r, hr, rfl⟩ := List.mem_map.mp hr'
      obtain ⟨hb, hn⟩ := h.quiet x hx r hr
      exact ⟨fun hb' => hb ((hchanged r hr).binds x hb'), by rwa [(hchanged r hr).bodyNames]⟩
    new := by
      intro r' hr' x hx
      obtain ⟨r, hr, rfl⟩ := List.mem_map.mp hr'
      exact h.new r hr x ((hchanged r hr).sub x hx)
    below := by
      rintro x (hx | ⟨u, hu, hfree⟩ | ⟨r', hr', hrow⟩)
      · exact h.below x (.inl hx)
      · exact h.below x (.inr (.inl ⟨u, List.mem_cons_of_mem _ hu, hfree⟩))
      · obtain ⟨r, hr, rfl⟩ := List.mem_map.mp hr'
        rcases hrow with hp | hu | hb | hname
        · obtain ⟨p, ps, hps⟩ := hrows r hr
          simp only [dropColumn, hps] at hp
          exact h.below x (.inr (.inr ⟨r, hr, .inl (by simp [hps, idsAll, hp])⟩))
        · rcases (hchanged r hr).uses x hu with hu | rfl
          · exact h.below x (.inr (.inr ⟨r, hr, .inr (.inl hu)⟩))
          · exact h.below _ (.inl hvid)
        · exact h.below x (.inr (.inr ⟨r, hr, .inr (.inr (.inl ((hchanged r hr).binds x hb)))⟩))
        · rw [(hchanged r hr).bodyNames] at hname
          exact h.below x (.inr (.inr ⟨r, hr, .inr (.inr (.inr hname))⟩)) }

/-! ## 3. A column with a constructor -/

/-- The row for the arm of the constructor. -/
def armRow (name : String) (fieldVars : List Variable) (first : Variable) (value : Term)
    (r : Row Body) : Option (Row Body) :=
  match r.patterns with
  | [] => none
  | .Constructor n ps :: patterns =>
    if n = name then some ⟨ps ++ patterns, r.body.replace first.id value⟩ else none
  | .Variable v :: patterns =>
    some ⟨fieldVars.map .Variable ++ patterns,
      (r.body.replace v.id first.term).replace first.id value⟩

/-- The row for the fallback. -/
def fallbackRow (name : String) (r : Row Body) : Option (Row Body) :=
  match r.patterns with
  | .Constructor n _ :: _ => if n = name then none else some r
  | _ => some r

/-- `splitRows` row by row. -/
theorem splitRows_ok {name : String} {arity : Nat} {fieldVars : List Variable} {first : Variable}
    {value : Term} {rows positive negative : List (Row Body)}
    (h : splitRows name arity fieldVars first value rows = .ok (positive, negative)) :
    positive = rows.filterMap (armRow name fieldVars first value) ∧
      negative = rows.filterMap (fallbackRow name) ∧
      ∀ r ∈ rows, ∀ ps patterns, r.patterns = .Constructor name ps :: patterns →
        ps.length = arity := by
  induction rows generalizing positive negative with
  | nil =>
    cases h
    simp
  | cons r rows ih =>
    simp only [splitRows] at h
    split at h
    · cases h
    · rename_i n ps patterns hps
      split at h
      · rename_i hn
        split at h
        · cases h
        · rename_i hlen
          cases hs : splitRows name arity fieldVars first value rows with
          | error e =>
            rw [hs] at h
            cases h
          | ok out =>
            obtain ⟨pos, neg⟩ := out
            rw [hs] at h
            cases h
            obtain ⟨rfl, rfl, hrest⟩ := ih hs
            refine ⟨?_, ?_, ?_⟩
            · rw [List.filterMap_cons_some (b := ⟨ps ++ patterns, _⟩)]
              simp [armRow, hps, hn]
            · rw [List.filterMap_cons_none]
              simp [fallbackRow, hps, hn]
            · intro s hs' qs rest hqs
              rcases List.mem_cons.mp hs' with rfl | hs'
              · rw [hps] at hqs
                cases hqs
                simpa using hlen
              · exact hrest s hs' qs rest hqs
      · rename_i hn
        cases hs : splitRows name arity fieldVars first value rows with
        | error e =>
          rw [hs] at h
          cases h
        | ok out =>
          obtain ⟨pos, neg⟩ := out
          rw [hs] at h
          cases h
          obtain ⟨rfl, rfl, hrest⟩ := ih hs
          refine ⟨?_, ?_, ?_⟩
          · rw [List.filterMap_cons_none]
            simp [armRow, hps, hn]
          · rw [List.filterMap_cons_some (b := r)]
            simp [fallbackRow, hps, hn]
          · intro s hs' qs rest hqs
            rcases List.mem_cons.mp hs' with rfl | hs'
            · rw [hps] at hqs
              cases hqs
              exact absurd rfl hn
            · exact hrest s hs' qs rest hqs
    · rename_i v patterns hps
      cases hs : splitRows name arity fieldVars first value rows with
      | error e =>
        rw [hs] at h
        cases h
      | ok out =>
        obtain ⟨pos, neg⟩ := out
        rw [hs] at h
        cases h
        obtain ⟨rfl, rfl, hrest⟩ := ih hs
        refine ⟨?_, ?_, ?_⟩
        · rw [List.filterMap_cons_some (b := ⟨fieldVars.map .Variable ++ patterns, _⟩)]
          simp [armRow, hps]
        · rw [List.filterMap_cons_some (b := r)]
          simp [fallbackRow, hps]
        · intro s hs' qs rest hqs
          rcases List.mem_cons.mp hs' with rfl | hs'
          · rw [hps] at hqs
            cases hqs
          · exact hrest s hs' qs rest hqs

theorem fallbackRow_eq {name : String} {r s : Row Body} (h : fallbackRow name r = some s) :
    r = s := by
  unfold fallbackRow at h
  split at h
  · split at h
    · cases h
    · exact Option.some.inj h
  · exact Option.some.inj h

/-- The names of a row for the arm. -/
theorem armRow_ids {name : String} {fieldVars : List Variable} {first : Variable} {value : Term}
    {r r' : Row Body} (h : armRow name fieldVars first value r = some r') {x : Nat}
    (hx : x ∈ idsAll r'.patterns) : x ∈ idsAll r.patterns ∨ x ∈ idsOf fieldVars := by
  unfold armRow at h
  split at h
  · cases h
  · rename_i n ps patterns hps
    split at h
    · cases h
      left
      simpa [hps, idsAll, Pattern.ids, idsAll_append] using hx
    · cases h
  · rename_i v patterns hps
    cases h
    rw [idsAll_append, idsAll_variables] at hx
    rcases List.mem_append.mp hx with hx | hx
    · exact .inr hx
    · exact .inl (by simp [hps, idsAll, hx])

/-- **Leaving rows out** keeps the invariant. -/
theorem MatchState.Inv.fallback {arity : String → Nat} {n : Nat} {st : MatchState} (name : String)
    (h : st.Inv arity n) :
    ({ st with rows := st.rows.filterMap (fallbackRow name) }).Inv arity n := by
  have hmem : ∀ r ∈ st.rows.filterMap (fallbackRow name), r ∈ st.rows := by
    intro r hr
    obtain ⟨s, hs, hrow⟩ := List.mem_filterMap.mp hr
    rwa [← fallbackRow_eq hrow]
  exact {
    nodup := h.nodup
    wide := fun r hr => h.wide r (hmem r hr)
    good := fun r hr => h.good r (hmem r hr)
    separate := by
      refine h.separate.filterMap (fun _ => False) ?_ ?_
      · intro r hr s hs
        obtain rfl := fallbackRow_eq hs
        exact ⟨fun x hx => hx, h.separate.linear r hr, fun x hx => .inl hx, fun x hx => hx, rfl,
          fun _ _ hf => hf⟩
      · intro r hr s hs
        obtain rfl := fallbackRow_eq hs
        exact h.separate.unused r hr
    quiet := fun x hx r hr => h.quiet x hx r (hmem r hr)
    new := fun r hr => h.new r (hmem r hr)
    below := by
      rintro x (hx | hx | ⟨r, hr, hrow⟩)
      · exact h.below x (.inl hx)
      · exact h.below x (.inr (.inl hx))
      · exact h.below x (.inr (.inr ⟨r, hmem r hr, hrow⟩)) }

/-! ## 4. The variables of the fields -/

theorem fieldVars_length (fields : List Pattern) (c : Counters) :
    (fieldVars fields c).1.length = fields.length := by
  induction fields generalizing c with
  | nil => rfl
  | cons p fields ih => cases p <;> simp [fieldVars, ih]

theorem fieldVars_le (fields : List Pattern) (c : Counters) :
    c.fresh ≤ (fieldVars fields c).2.fresh := by
  induction fields generalizing c with
  | nil => exact Nat.le_refl _
  | cons p fields ih =>
    cases p with
    | Variable v => exact ih c
    | Constructor name ps => exact Nat.le_of_succ_le (ih ⟨c.fresh + 1, c.display + 1⟩)

/-- A field's variable is a name of the pattern or a fresh one. -/
theorem fieldVars_mem {fields : List Pattern} {c : Counters} {f : Nat}
    (h : f ∈ idsOf (fieldVars fields c).1) :
    f ∈ idsAll fields ∨ c.fresh ≤ f ∧ f < (fieldVars fields c).2.fresh := by
  induction fields generalizing c with
  | nil => cases h
  | cons p fields ih =>
    cases p with
    | Variable v =>
      simp only [fieldVars, idsOf, List.map_cons, List.mem_cons] at h
      rcases h with rfl | h
      · exact .inl (by simp [idsAll, Pattern.ids])
      · refine (ih h).imp_left fun h => ?_
        simp [idsAll, h]
    | Constructor name ps =>
      simp only [fieldVars, idsOf, List.map_cons, List.mem_cons] at h
      have hle := fieldVars_le fields ⟨c.fresh + 1, c.display + 1⟩
      rcases h with rfl | h
      · exact .inr ⟨Nat.le_refl _, hle⟩
      · rcases ih h with h | ⟨hlow, hhigh⟩
        · exact .inl (by simp [idsAll, h])
        · exact .inr ⟨Nat.le_of_succ_le hlow, hhigh⟩

/-- The fields' variables are apart, and none is foreign to the constructor they come from. -/
theorem fieldVars_apart {fields : List Pattern} {c : Counters} (hnodup : (idsAll fields).Nodup)
    (hbelow : ∀ x ∈ idsAll fields, x < c.fresh) :
    (idsOf (fieldVars fields c).1).Nodup ∧
      ∀ f ∈ idsOf (fieldVars fields c).1,
        f ∉ foreign ((fieldVars fields c).1.map Variable.term) fields := by
  induction fields generalizing c with
  | nil => exact ⟨List.nodup_nil, fun f hf => by cases hf⟩
  | cons p fields ih =>
    obtain ⟨hp, hrest, hdisj⟩ := List.nodup_append.mp hnodup
    have hbelow' : ∀ x ∈ idsAll fields, x < c.fresh := fun x hx => hbelow x (by simp [idsAll, hx])
    cases p with
    | Variable v =>
      obtain ⟨hnd, hforeign⟩ := ih hrest hbelow'
      have hv : v.id ∉ idsAll fields := fun hv => hdisj v.id (by simp [Pattern.ids]) v.id hv rfl
      have hlt : v.id < c.fresh := hbelow v.id (by simp [idsAll, Pattern.ids])
      have hown : foreign (((fieldVars (.Variable v :: fields) c).1).map Variable.term)
          (.Variable v :: fields) =
            foreign ((fieldVars fields c).1.map Variable.term) fields := by
        simp [fieldVars, foreign, own, isVar_term]
      rw [hown]
      simp only [fieldVars, idsOf, List.map_cons, List.nodup_cons, List.mem_cons]
      refine ⟨⟨fun hmem => ?_, hnd⟩, ?_⟩
      · rcases fieldVars_mem hmem with hmem | ⟨hlow, _⟩
        · exact hv hmem
        · omega
      · rintro f (rfl | hf)
        · exact fun hf => hv (foreign_sub hf)
        · exact hforeign f hf
    | Constructor name ps =>
      obtain ⟨hnd, hforeign⟩ := ih (c := ⟨c.fresh + 1, c.display + 1⟩) hrest
        fun x hx => Nat.lt_succ_of_lt (hbelow' x hx)
      have hps : ∀ x ∈ idsAll ps, x < c.fresh := fun x hx =>
        hbelow x (by simp [idsAll, Pattern.ids, hx])
      simp only [fieldVars, idsOf, List.map_cons, List.nodup_cons, List.mem_cons, foreign, own,
        Bool.false_eq_true, if_false, Pattern.ids, List.mem_append, not_or]
      refine ⟨⟨fun hmem => ?_, hnd⟩, ?_⟩
      · rcases fieldVars_mem hmem with hmem | ⟨hlow, _⟩
        · have := hbelow' _ hmem
          omega
        · simp only at hlow
          omega
      · rintro f (rfl | hf)
        · refine ⟨fun hf => Nat.lt_irrefl _ (hps _ hf), fun hf => ?_⟩
          exact Nat.lt_irrefl _ (hbelow' _ (foreign_sub hf))
        · refine ⟨fun hf' => ?_, hforeign f hf⟩
          rcases fieldVars_mem hf with hmem | ⟨hlow, _⟩
          · exact hdisj f (by simpa [Pattern.ids] using hf') f hmem rfl
          · have := hps f hf'
            simp only at hlow
            omega

/-- The constructor of the fields' variables. -/
theorem constructor_term (name : String) (vs : List Variable) :
    (Pattern.Constructor name (vs.map .Variable)).term = .Ctr name (vs.map Variable.term) := by
  have hterms : Pattern.terms (vs.map .Variable) = vs.map Variable.term := by
    induction vs with
    | nil => rfl
    | cons v vs ih => simp [Pattern.terms, Pattern.term, ih]
  rw [Pattern.term, hterms]

theorem freeIn_constructor {name : String} {vs : List Variable} {x : Nat}
    (h : FreeIn x (Pattern.Constructor name (vs.map .Variable)).term) : x ∈ idsOf vs := by
  rw [constructor_term] at h
  cases h with
  | ctr ha h =>
    obtain ⟨v, hv, rfl⟩ := List.mem_map.mp ha
    rw [freeIn_term h]
    exact List.mem_map_of_mem hv

theorem not_boundIn_constructor (name : String) (vs : List Variable) (x : Nat) :
    ¬BoundIn x (Pattern.Constructor name (vs.map .Variable)).term := by
  intro h
  rw [constructor_term] at h
  cases h with
  | ctr ha h =>
    obtain ⟨v, hv, rfl⟩ := List.mem_map.mp ha
    exact not_boundIn_term v x h

/-! ## 5. The arm -/

section Arm

variable {arity : String → Nat} {c : Counters} {t : Term} {ss : List Term} {rows : List (Row Body)}
  {first : Variable} {vars : List Variable} {name : String} {fields ps₀ : List Pattern}
  {r₀ : Row Body}

/-- A field's variable is a foreign name of the row it comes from, or fresh. -/
theorem field_origin (t : Term) (ss : List Term)
    (hps₀ : r₀.patterns = .Constructor name fields :: ps₀) {f : Nat}
    (hf : f ∈ idsOf (fieldVars fields c).1) :
    f ∈ foreign (t :: ss) r₀.patterns ∨ c.fresh ≤ f := by
  refine (fieldVars_mem hf).imp (fun hf => ?_) And.left
  simp [hps₀, foreign, own, Pattern.ids, hf]

variable (hinv : MatchState.Inv arity c.fresh ⟨t :: ss, rows, first :: vars⟩) (hr₀ : r₀ ∈ rows)
  (hps₀ : r₀.patterns = .Constructor name fields :: ps₀)

include hinv hr₀ hps₀

theorem field_not_var {f : Nat} (hf : f ∈ idsOf (fieldVars fields c).1) :
    f ∉ idsOf (first :: vars) := by
  rcases field_origin t ss hps₀ hf with hf | hf
  · exact hinv.new r₀ hr₀ f hf
  · exact fun hvar => Nat.not_le_of_lt (hinv.below f (.inl hvar)) hf

theorem field_quiet {f : Nat} (hf : f ∈ idsOf (fieldVars fields c).1) {r : Row Body}
    (hr : r ∈ rows) : ¬r.body.Binds f ∧ f ∉ r.body.names := by
  rcases field_origin t ss hps₀ hf with hf | hf
  · exact hinv.separate.quiet r₀ hr₀ f hf r hr
  · refine ⟨fun hb => Nat.not_le_of_lt (hinv.below f ?_) hf,
      fun hn => Nat.not_le_of_lt (hinv.below f ?_) hf⟩
    · exact .inr (.inr ⟨r, hr, .inr (.inr (.inl hb))⟩)
    · exact .inr (.inr ⟨r, hr, .inr (.inr (.inr hn))⟩)

theorem field_unused {f : Nat} (hf : f ∈ idsOf (fieldVars fields c).1) {u : Term}
    (hu : u ∈ t :: ss) : ¬FreeIn f u := by
  rcases field_origin t ss hps₀ hf with hf | hf
  · exact hinv.separate.unused r₀ hr₀ f hf u hu
  · exact fun hfree => Nat.not_le_of_lt (hinv.below f (.inr (.inl ⟨u, hu, hfree⟩))) hf

/-- No other row knows of the fields' variables. -/
theorem field_other {f : Nat} (hf : f ∈ idsOf (fieldVars fields c).1) {r : Row Body}
    (hr : r ∈ rows) (hne : r ≠ r₀) : f ∉ idsAll r.patterns ∧ ¬r.body.Uses f := by
  rcases field_origin t ss hps₀ hf with hfo | hfo
  · obtain ⟨hforeign, huses⟩ := hinv.separate.other hr₀ hr (Ne.symm hne) hfo
    refine ⟨fun hids => ?_, huses⟩
    rcases foreign_or_used (t :: ss) hids with hids | ⟨u, hu, hfree⟩
    · exact hforeign hids
    · exact field_unused hinv hr₀ hps₀ hf hu hfree
  · refine ⟨fun hids => Nat.not_le_of_lt (hinv.below f ?_) hfo,
      fun hu => Nat.not_le_of_lt (hinv.below f ?_) hfo⟩
    · exact .inr (.inr ⟨r, hr, .inl hids⟩)
    · exact .inr (.inr ⟨r, hr, .inr (.inl hu)⟩)

/-- A row for the arm has no new foreign name, and none of the fields' variables. -/
theorem armRow_foreign
    (hlens : ∀ r ∈ rows, ∀ ps patterns, r.patterns = .Constructor name ps :: patterns →
      ps.length = fields.length) {value : Term} {r r' : Row Body} (hr : r ∈ rows)
    (hrow : armRow name (fieldVars fields c).1 first value r = some r') :
    (foreign ((fieldVars fields c).1.map Variable.term ++ ss) r'.patterns).Sublist
        (foreign (t :: ss) r.patterns) ∧
      ∀ x ∈ foreign ((fieldVars fields c).1.map Variable.term ++ ss) r'.patterns,
        x ∉ idsOf (fieldVars fields c).1 := by
  have hsub : (foreign ((fieldVars fields c).1.map Variable.term ++ ss) r'.patterns).Sublist
      (foreign (t :: ss) r.patterns) := by
    unfold armRow at hrow
    split at hrow
    · cases hrow
    · rename_i n ps patterns hps
      split at hrow
      · rename_i hn
        cases hrow
        have hlen := hlens r hr ps patterns (hn ▸ hps)
        rw [foreign_append (by simp [fieldVars_length, hlen]), hps, foreign]
        exact (foreign_sublist _ _).append (List.Sublist.refl _)
      · cases hrow
    · rename_i v patterns hps
      cases hrow
      rw [foreign_append (by simp), foreign_own, hps, foreign]
      exact List.sublist_append_right _ _
  refine ⟨hsub, fun x hx hf => ?_⟩
  by_cases hr₀' : r = r₀
  · subst hr₀'
    have hrow₀ : r'.patterns = fields ++ ps₀ := by
      simp only [armRow, hps₀, if_true, Option.some.injEq] at hrow
      rw [← hrow]
    have hold : foreign (t :: ss) r.patterns = idsAll fields ++ foreign ss ps₀ := by
      simp [hps₀, foreign, own, Pattern.ids]
    have hlinear := hinv.separate.linear r hr
    simp only [MatchState.foreignOf, hold] at hlinear
    obtain ⟨hnodup, -, hdisj⟩ := List.nodup_append.mp hlinear
    have hbelow : ∀ y ∈ idsAll fields ++ foreign ss ps₀, y < c.fresh := fun y hy =>
      hinv.below y (.inr (.inr ⟨r, hr, .inl (foreign_sub (hold ▸ hy))⟩))
    rw [hrow₀, foreign_append (by simp [fieldVars_length]), List.mem_append] at hx
    rcases hx with hx | hx
    · exact (fieldVars_apart hnodup fun y hy => hbelow y (by simp [hy])).2 x hf hx
    · rcases fieldVars_mem hf with hf | ⟨hlow, -⟩
      · exact hdisj x hf x hx rfl
      · exact Nat.not_le_of_lt (hbelow x (by simp [hx])) hlow
  · exact (field_other hinv hr₀ hps₀ hf hr hr₀').1 (foreign_sub (hsub.subset hx))

/-- A row for the arm is a changed row: it may use the fields' variables newly. -/
theorem armRow_changed
    (hlens : ∀ r ∈ rows, ∀ ps patterns, r.patterns = .Constructor name ps :: patterns →
      ps.length = fields.length) {r r' : Row Body} (hr : r ∈ rows)
    (hrow : armRow name (fieldVars fields c).1 first
      (Pattern.Constructor name ((fieldVars fields c).1.map .Variable)).term r = some r') :
    Changed (· ∈ idsOf (fieldVars fields c).1) (fun r => foreign (t :: ss) r.patterns)
      (fun r => foreign ((fieldVars fields c).1.map Variable.term ++ ss) r.patterns) r r' := by
  obtain ⟨hsub, hfresh⟩ := armRow_foreign hinv hr₀ hps₀ hlens hr hrow
  have hbound := not_boundIn_constructor name (fieldVars fields c).1
  have hbody : (∀ x, r'.body.Uses x → r.body.Uses x ∨ x ∈ idsOf (fieldVars fields c).1) ∧
      (∀ x, r'.body.Binds x → r.body.Binds x) ∧ r'.body.names = r.body.names := by
    unfold armRow at hrow
    split at hrow
    · cases hrow
    · split at hrow
      · cases hrow
        exact ⟨fun x hx => hx.of_replace.imp And.left freeIn_constructor,
          fun x hx => hx.of_replace.resolve_right (hbound x), Body.names_replace _ _ _⟩
      · cases hrow
    · rename_i v patterns hps
      cases hrow
      refine ⟨fun x hx => ?_, fun x hx => ?_, by simp⟩
      · rcases hx.of_replace with ⟨hx, hne⟩ | hx
        · rcases hx.of_replace with ⟨hx, -⟩ | hx
          · exact .inl hx
          · exact absurd (freeIn_term hx) hne
        · exact .inr (freeIn_constructor hx)
      · have hx' := hx.of_replace.resolve_right (hbound x)
        exact hx'.of_replace.resolve_right (not_boundIn_term first x)
  exact {
    sub := fun x hx => hsub.subset hx
    linear := (hinv.separate.linear r hr).sublist hsub
    uses := hbody.1
    binds := hbody.2.1
    bodyNames := hbody.2.2
    fresh := hfresh }

omit hr₀ hps₀ in
/-- A row for the arm is as wide as the fields and the rest of the columns. -/
theorem armRow_wide
    (hlens : ∀ r ∈ rows, ∀ ps patterns, r.patterns = .Constructor name ps :: patterns →
      ps.length = fields.length) {value : Term} {r r' : Row Body} (hr : r ∈ rows)
    (hrow : armRow name (fieldVars fields c).1 first value r = some r') :
    r'.patterns.length = ((fieldVars fields c).1.map Variable.term ++ ss).length ∧
      FitAll arity r'.patterns := by
  obtain ⟨hlen, hfits⟩ := hinv.wide r hr
  unfold armRow at hrow
  split at hrow
  · cases hrow
  · rename_i n ps patterns hps
    split at hrow
    · rename_i hn
      cases hrow
      have hps' := hlens r hr ps patterns (hn ▸ hps)
      rw [hps] at hlen hfits
      refine ⟨?_, fitAll_append.mpr ⟨hfits.1.2, hfits.2⟩⟩
      simp [fieldVars_length, hps'] at hlen ⊢
      omega
    · cases hrow
  · rename_i v patterns hps
    cases hrow
    rw [hps] at hlen hfits
    refine ⟨?_, fitAll_append.mpr ⟨fitAll_variables _ _, hfits.2⟩⟩
    simp at hlen ⊢
    omega

/-- Its body stays good: no name of it is replaced. -/
theorem armRow_good {r r' : Row Body} (hr : r ∈ rows)
    (hrow : armRow name (fieldVars fields c).1 first
      (Pattern.Constructor name ((fieldVars fields c).1.map .Variable)).term r = some r') :
    r'.body.Good arity := by
  have hnames : ∀ x, FreeIn x (Pattern.Constructor name
      ((fieldVars fields c).1.map .Variable)).term → x ∉ r.body.names := fun x hx =>
    (field_quiet hinv hr₀ hps₀ (freeIn_constructor hx) hr).2
  have hbound := not_boundIn_constructor name (fieldVars fields c).1
  unfold armRow at hrow
  split at hrow
  · cases hrow
  · split at hrow
    · cases hrow
      exact (hinv.good r hr).replace hnames hbound
    · cases hrow
  · rename_i v patterns hps
    cases hrow
    refine Body.Good.replace (Body.Good.replace (hinv.good r hr) ?_ (not_boundIn_term first))
      (by simpa using hnames) hbound
    intro x hx
    rw [freeIn_term hx]
    exact (hinv.quiet first.id (by simp) r hr).2

/-- The arm mentions nothing but what the columns did and the fields' variables. -/
theorem arm_mentions
    (hlens : ∀ r ∈ rows, ∀ ps patterns, r.patterns = .Constructor name ps :: patterns →
      ps.length = fields.length) {x : Nat}
    (h : MatchState.Mentions ⟨(fieldVars fields c).1.map Variable.term ++ ss,
      rows.filterMap (armRow name (fieldVars fields c).1 first
        (Pattern.Constructor name ((fieldVars fields c).1.map .Variable)).term),
      (fieldVars fields c).1 ++ vars⟩ x) :
    x ∈ idsOf (fieldVars fields c).1 ∨
      MatchState.Mentions ⟨t :: ss, rows, first :: vars⟩ x := by
  rcases h with hx | ⟨u, hu, hfree⟩ | ⟨r', hr', hx⟩
  · rw [idsOf, List.map_append] at hx
    exact (List.mem_append.mp hx).imp id fun hx => .inl (List.mem_cons_of_mem _ hx)
  · rcases List.mem_append.mp hu with hu | hu
    · obtain ⟨v, hv, rfl⟩ := List.mem_map.mp hu
      rw [freeIn_term hfree]
      exact .inl (List.mem_map_of_mem hv)
    · exact .inr (.inr (.inl ⟨u, List.mem_cons_of_mem _ hu, hfree⟩))
  · obtain ⟨r, hr, hrow⟩ := List.mem_filterMap.mp hr'
    have hc := armRow_changed hinv hr₀ hps₀ hlens hr hrow
    rcases hx with hx | hx | hx | hx
    · exact (armRow_ids hrow hx).symm.imp id fun hx => .inr (.inr ⟨r, hr, .inl hx⟩)
    · exact (hc.uses x hx).symm.imp id fun hx => .inr (.inr ⟨r, hr, .inr (.inl hx)⟩)
    · exact .inr (.inr (.inr ⟨r, hr, .inr (.inr (.inl (hc.binds x hx)))⟩))
    · rw [hc.bodyNames] at hx
      exact .inr (.inr (.inr ⟨r, hr, .inr (.inr (.inr hx))⟩))

/-- **The arm** keeps the invariant, below the counter after the fields. -/
theorem MatchState.Inv.arm
    (hlens : ∀ r ∈ rows, ∀ ps patterns, r.patterns = .Constructor name ps :: patterns →
      ps.length = fields.length) :
    MatchState.Inv arity (fieldVars fields c).2.fresh
      ⟨(fieldVars fields c).1.map Variable.term ++ ss,
        rows.filterMap (armRow name (fieldVars fields c).1 first
          (Pattern.Constructor name ((fieldVars fields c).1.map .Variable)).term),
        (fieldVars fields c).1 ++ vars⟩ := by
  have hfields := List.nodup_append.mp (show (idsAll fields ++ foreign ss ps₀).Nodup by
    have hlinear := hinv.separate.linear r₀ hr₀
    simpa [MatchState.foreignOf, hps₀, foreign, own, Pattern.ids] using hlinear)
  have hbelow : ∀ x ∈ idsAll fields, x < c.fresh := fun x hx =>
    hinv.below x (.inr (.inr ⟨r₀, hr₀, .inl (by simp [hps₀, idsAll, Pattern.ids, hx])⟩))
  have hle := fieldVars_le fields c
  have hvar : ∀ x ∈ idsOf vars, x ∈ idsOf (first :: vars) := fun x hx => List.mem_cons_of_mem _ hx
  have hchanged : ∀ r ∈ rows, ∀ r', armRow name (fieldVars fields c).1 first
      (Pattern.Constructor name ((fieldVars fields c).1.map .Variable)).term r = some r' →
      Changed (· ∈ idsOf (fieldVars fields c).1) (fun r => foreign (t :: ss) r.patterns)
        (fun r => foreign ((fieldVars fields c).1.map Variable.term ++ ss) r.patterns) r r' :=
    fun r hr r' hrow => armRow_changed hinv hr₀ hps₀ hlens hr hrow
  exact {
    nodup := by
      rw [idsOf, List.map_append]
      refine List.nodup_append.mpr ⟨(fieldVars_apart hfields.1 hbelow).1,
        (List.nodup_cons.mp hinv.nodup).2, fun x hx y hy hxy => ?_⟩
      exact field_not_var hinv hr₀ hps₀ hx (hvar _ (hxy ▸ hy))
    wide := by
      intro r' hr'
      obtain ⟨r, hr, hrow⟩ := List.mem_filterMap.mp hr'
      exact armRow_wide hinv hlens hr hrow
    good := by
      intro r' hr'
      obtain ⟨r, hr, hrow⟩ := List.mem_filterMap.mp hr'
      exact armRow_good hinv hr₀ hps₀ hr hrow
    separate := by
      refine hinv.separate.filterMap _ hchanged fun r hr r' hrow x hx u hu hfree => ?_
      rcases List.mem_append.mp hu with hu | hu
      · obtain ⟨v, hv, rfl⟩ := List.mem_map.mp hu
        refine (hchanged r hr r' hrow).fresh x hx ?_
        rw [freeIn_term hfree]
        exact List.mem_map_of_mem hv
      · exact hinv.separate.unused r hr x ((hchanged r hr r' hrow).sub x hx) u
          (List.mem_cons_of_mem _ hu) hfree
    quiet := by
      intro x hx r' hr'
      obtain ⟨r, hr, hrow⟩ := List.mem_filterMap.mp hr'
      have hold : ¬r.body.Binds x ∧ x ∉ r.body.names := by
        rw [idsOf, List.map_append] at hx
        rcases List.mem_append.mp hx with hx | hx
        · exact field_quiet hinv hr₀ hps₀ hx hr
        · exact hinv.quiet x (hvar x hx) r hr
      have hc := hchanged r hr r' hrow
      exact ⟨fun hb => hold.1 (hc.binds x hb), by rw [hc.bodyNames]; exact hold.2⟩
    new := by
      intro r' hr' x hx hmem
      obtain ⟨r, hr, hrow⟩ := List.mem_filterMap.mp hr'
      have hc := hchanged r hr r' hrow
      rw [idsOf, List.map_append] at hmem
      rcases List.mem_append.mp hmem with hmem | hmem
      · exact hc.fresh x hx hmem
      · exact hinv.new r hr x (hc.sub x hx) (hvar x hmem)
    below := by
      intro x hx
      rcases arm_mentions hinv hr₀ hps₀ hlens hx with hx | hx
      · rcases fieldVars_mem hx with hx | ⟨-, hx⟩
        · exact Nat.lt_of_lt_of_le (hbelow x hx) hle
        · exact hx
      · exact Nat.lt_of_lt_of_le (hinv.below x hx) hle }

end Arm

/-! ## 6. What a step does -/

/-- The state for the arm of a constructor. -/
def armState (ss : List Term) (rows : List (Row Body)) (first : Variable) (vars : List Variable)
    (name : String) (fields : List Pattern) (c : Counters) : MatchState :=
  ⟨(fieldVars fields c).1.map Variable.term ++ ss,
    rows.filterMap (armRow name (fieldVars fields c).1 first
      (Pattern.Constructor name ((fieldVars fields c).1.map .Variable)).term),
    (fieldVars fields c).1 ++ vars⟩

/-- The constructor that splits the first column, with the row it comes from. -/
structure Splits (rows : List (Row Body)) (name : String) (fields : List Pattern) (r₀ : Row Body)
    (ps₀ : List Pattern) : Prop where
  mem : r₀ ∈ rows
  head : r₀.patterns = .Constructor name fields :: ps₀
  lengths : ∀ r ∈ rows, ∀ ps patterns, r.patterns = .Constructor name ps :: patterns →
    ps.length = fields.length

/-- **The outcomes of `flatten_match_step`.** -/
inductive Stepped : MatchState → Counters → MatchStep → Counters → Prop where
  | body {r : Row Body} {rows : List (Row Body)} {vars : List Variable} {c : Counters} {d : Nat} :
      Stepped ⟨[], r :: rows, vars⟩ c (.Body d) c
  | skip {t : Term} {ss : List Term} {rows : List (Row Body)} {first : Variable}
      {vars : List Variable} {c : Counters} :
      Stepped ⟨t :: ss, rows, first :: vars⟩ c (.SkipBinder first) c
  | column {t : Term} {ss : List Term} {rows : List (Row Body)} {vars : List Variable}
      {v : Variable} {c : Counters} (hv : v ∈ vars) (ht : isVar t v) (hrows : Variables rows) :
      Stepped ⟨t :: ss, rows, vars⟩ c (.Continue ⟨ss, rows.map (dropColumn v), vars⟩ none) c
  | done {t : Term} {ss : List Term} {first : Variable} {vars : List Variable} {c : Counters} :
      Stepped ⟨t :: ss, [], first :: vars⟩ c (.Done .Efq) c
  | nullary {t : Term} {ss : List Term} {rows : List (Row Body)} {first : Variable}
      {vars : List Variable} {name : String} {fields ps₀ : List Pattern} {r₀ : Row Body}
      {c : Counters} (ht : isVar t first) (hs : Splits rows name fields r₀ ps₀) :
      Stepped ⟨t :: ss, rows, first :: vars⟩ c
        (.Nullary name (armState ss rows first vars name fields c)
          ⟨t :: ss, rows.filterMap (fallbackRow name), first :: vars⟩) (fieldVars fields c).2
  | constructor {t : Term} {ss : List Term} {rows : List (Row Body)} {first : Variable}
      {vars : List Variable} {name : String} {fields ps₀ : List Pattern} {r₀ : Row Body}
      {c : Counters} (ht : isVar t first) (hs : Splits rows name fields r₀ ps₀) :
      Stepped ⟨t :: ss, rows, first :: vars⟩ c
        (.Constructor name (armState ss rows first vars name fields c)
          ⟨t :: ss, rows.filterMap (fallbackRow name), first :: vars⟩) (fieldVars fields c).2

/-- The split of a column. -/
theorem constructorStep_stepped {t : Term} {ss : List Term} {rows : List (Row Body)}
    {first : Variable} {vars : List Variable} {name : String} {fields : List Pattern}
    {c c' : Counters} {step : MatchStep} (ht : isVar t first)
    (hhead : headConstructor rows = .ok (some (name, fields)))
    (h : constructorStep ⟨t :: ss, rows, first :: vars⟩ ss first vars name fields c =
      .ok (step, c')) : Stepped ⟨t :: ss, rows, first :: vars⟩ c step c' := by
  obtain ⟨r₀, hr₀, ps₀, hps₀⟩ := headConstructor_some hhead
  simp only [constructorStep] at h
  cases hs : splitRows name fields.length (fieldVars fields c).1 first
      (Pattern.Constructor name ((fieldVars fields c).1.map .Variable)).term rows with
  | error e =>
    rw [hs] at h
    cases h
  | ok out =>
    obtain ⟨positive, negative⟩ := out
    obtain ⟨rfl, rfl, hlens⟩ := splitRows_ok hs
    rw [hs] at h
    simp only [bind, Except.bind] at h
    split at h
    · cases h
      exact .nullary ht ⟨hr₀, hps₀, hlens⟩
    · cases h
      exact .constructor ht ⟨hr₀, hps₀, hlens⟩

/-- **A step of the match** is one of the outcomes. -/
theorem flattenMatchStep_stepped {limit : Option Nat} {depth : Nat} {st : MatchState}
    {c c' : Counters} {step : MatchStep}
    (h : flattenMatchStep limit depth st c = .ok (step, c')) : Stepped st c step c' := by
  obtain ⟨scrutinees, rows, vars⟩ := st
  unfold flattenMatchStep at h
  split at h
  · cases h
  split at h
  · rename_i hss
    obtain rfl : scrutinees = [] := hss
    split at h
    · cases h
    · rename_i r rows' hrows
      obtain rfl : rows = r :: rows' := hrows
      cases h
      exact .body
  rename_i t ss hss
  obtain rfl : scrutinees = t :: ss := hss
  split at h
  · cases h
  rename_i first vars' hvars
  obtain rfl : vars = first :: vars' := hvars
  cases hhead : headConstructor rows with
  | error e =>
    rw [hhead] at h
    cases h
  | ok constructor =>
    rw [hhead] at h
    cases hfind : (first :: vars').find? (isVar t) with
    | none =>
      simp only [hfind] at h
      cases h
      exact .skip
    | some v =>
      simp only [hfind] at h
      have hv : isVar t v := List.find?_some hfind
      have hmem : v ∈ first :: vars' := List.mem_of_find?_eq_some hfind
      split at h
      · rename_i hcol
        cases h
        have hnone : constructor = none := by
          cases constructor with
          | none => rfl
          | some p => simp at hcol
        exact .column hmem hv (headConstructor_none (hnone ▸ hhead))
      · rename_i hcol
        split at h
        · rename_i hid
          have hfirst : isVar t first := by
            obtain ⟨name, rfl⟩ := isVar_iff.mp hv
            exact isVar_iff.mpr ⟨name, by rw [hid]⟩
          cases constructor with
          | none =>
            have hempty : rows = [] := by
              cases rows with
              | nil => rfl
              | cons r rows => simp at hcol
            subst hempty
            cases h
            exact .done
          | some p =>
            obtain ⟨name, fields⟩ := p
            exact constructorStep_stepped hfirst hhead h
        · cases h
          exact .skip

end TeamyBend.Syntax
