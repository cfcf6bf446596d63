/-
# Match compilation keeps the first match

The core term of a body, applied to constructor values for its variables, reaches what the body
means: the reply of the first row that matches, or `Efq` when none does.

The proof follows the recursion of `Flattens`.  Leading lambdas take the values into an environment
(`entered`), a match on the first value goes to its arm or its fallback, and in each case the rows
that are left mean what the rows meant before.
-/
import TeamyBend.Syntax.Flatten
import TeamyBend.Syntax.RowMeaning

namespace TeamyBend.Syntax

open Kernel

/-! ## 1. Leading lambdas -/

/-- The leading lambdas of a term are for the variables, in order. -/
def Leads : List Variable → Term → Prop
  | v :: vars, .Lam name id body => name = v.name ∧ id = v.id ∧ Leads vars body
  | _, _ => True

theorem leads_closeOver (vars : List Variable) (t : Term) : Leads vars (closeOver vars t) := by
  induction vars with
  | nil => trivial
  | cons v vars ih => exact ⟨rfl, rfl, ih⟩

/-- **A flattened term** starts with the lambdas of its variables. -/
theorem Flattens.leads {task : Task} {c c' : Counters} {t : Term} (h : Flattens task c t c') :
    Leads task.vars t := by
  induction h with
  | reply => exact leads_closeOver _ _
  | match_ _ ih => exact ih
  | destructure _ ih => exact ih
  | local_ hb h hf ih =>
    simp only [finishLocal, bind, Except.bind] at hf
    split at hf
    · cases hf
    · cases hf
      exact leads_closeOver _ _
  | done hs =>
    cases flattenMatchStep_stepped hs
    trivial
  | row hs hr h ih => exact ih
  | column hs h ih =>
    cases flattenMatchStep_stepped hs
    exact ih
  | skip hs h ih =>
    cases flattenMatchStep_stepped hs
    exact ⟨rfl, rfl, ih⟩
  | nullary hs ha hf =>
    cases flattenMatchStep_stepped hs
    trivial
  | constructor hs ha hf =>
    cases flattenMatchStep_stepped hs
    trivial

/-- Lambdas that are taken off were the ones of the variables. -/
theorem closeOver_of_takeLambdas {vars : List Variable} {t tail : Term} (hleads : Leads vars t)
    (h : takeLambdas vars t = .ok tail) : t = closeOver vars tail := by
  induction vars generalizing t with
  | nil =>
    cases h
    rfl
  | cons v vars ih =>
    cases t with
    | Lam name id body =>
      obtain ⟨rfl, rfl, hbody⟩ := hleads
      rw [ih hbody h]
      rfl
    | _ => cases h

/-- Entering the lambdas of the variables. -/
theorem entered_closeOver {vars : List Variable} {vals : List Term} (h : vals.length = vars.length)
    (t : Term) (η : Env) :
    entered (closeOver vars t) η vals = subst (η.bindAll (idsOf vars) vals) t := by
  induction vars generalizing η vals with
  | nil =>
    obtain rfl := List.length_eq_zero_iff.mp h
    exact entered_nil t η
  | cons v vars ih =>
    cases vals with
    | nil => simp at h
    | cons w vals => exact ih (by simpa using h) (η.set v.id w)

/-- **Contracting leading lambdas**: what comes in does not mention the variables. -/
theorem steps_entered {vars : List Variable} {t : Term} {η : Env} {vals : List Term}
    (hleads : Leads vars t) (hlen : vals.length = vars.length)
    (hη : ∀ x ∈ idsOf vars, ¬η.Brings x) (hvals : ∀ x ∈ idsOf vars, ∀ v ∈ vals, ¬FreeIn x v) :
    Steps (apps (subst η t) vals) (entered t η vals) := by
  induction vals generalizing vars t η with
  | nil =>
    rw [entered_nil]
    exact .refl
  | cons w vals ih =>
    cases vars with
    | nil => simp at hlen
    | cons v vars =>
      cases t with
      | Lam name id body =>
        obtain ⟨rfl, rfl, hbody⟩ := hleads
        have hbeta : HeadStep (.App (subst η (.Lam v.name v.id body)) w)
            (subst (η.set v.id w) body) := by
          rw [← substitute_subst_drop (hη v.id (by simp))]
          exact .beta
        refine Steps.trans (Steps.apps hbeta.steps vals) (ih hbody (by simpa using hlen) ?_ ?_)
        · intro x hx hbring
          rcases hbring.of_set with h | h
          · exact hη x (List.mem_cons_of_mem _ hx) h
          · exact hvals x (List.mem_cons_of_mem _ hx) w (by simp) h
        · exact fun x hx u hu => hvals x (List.mem_cons_of_mem _ hx) u (List.mem_cons_of_mem _ hu)
      | _ => exact .refl

/-! ## 2. What is kept along the recursion -/

namespace Task

/-- The invariant of a task. -/
def Inv (arity : String → Nat) (n : Nat) : Task → Prop
  | .body vars b => BodyInv arity n vars b
  | .match_ st => st.Inv arity n

/-- A number from outside the task. -/
def Outer (n : Nat) (id : Nat) : Task → Prop
  | .body vars b => id < n ∧ id ∉ idsOf vars ∧ id ∉ b.names
  | .match_ st => id < n ∧ id ∉ idsOf st.vars ∧
      ∀ r ∈ st.rows, id ∉ idsAll r.patterns ∧ id ∉ r.body.names

/-- What a task means. -/
def meaning : Task → Env → Option Term
  | .body _ b, ρ => b.meaning ρ
  | .match_ st, ρ => Body.rowsMeaning st.rows ρ (st.scrutinees.map (subst ρ))

/-- **Values for a task**: what they and the environment bring in is from outside. -/
structure Ready (arity : String → Nat) (n : Nat) (task : Task) (η : Env) (vals : List Term) :
    Prop where
  inv : task.Inv arity n
  env : ∀ id, η.Brings id → task.Outer n id
  values : ∀ v ∈ vals, ∀ id, FreeIn id v → task.Outer n id
  length : vals.length = task.vars.length

/-- A task for the same values whose outside contains the outside of the first. -/
theorem Ready.next {arity : String → Nat} {n n' : Nat} {task task' : Task} {η : Env}
    {vals : List Term} (h : Ready arity n task η vals) (hinv : task'.Inv arity n')
    (houter : ∀ id, task.Outer n id → task'.Outer n' id) (hvars : task'.vars = task.vars) :
    Ready arity n' task' η vals where
  inv := hinv
  env := fun id hid => houter id (h.env id hid)
  values := fun v hv id hid => houter id (h.values v hv id hid)
  length := hvars ▸ h.length

end Task

/-- The counter only grows. -/
theorem Flattens.le {task : Task} {c c' : Counters} {t : Term} (h : Flattens task c t c') :
    c.fresh ≤ c'.fresh := by
  induction h with
  | reply => exact Nat.le_refl _
  | match_ _ ih => exact ih
  | destructure _ ih => exact ih
  | local_ _ _ _ ih => exact ih
  | done hs =>
    cases flattenMatchStep_stepped hs
    exact Nat.le_refl _
  | row hs _ _ ih =>
    cases flattenMatchStep_stepped hs
    exact ih
  | column hs _ ih =>
    cases flattenMatchStep_stepped hs
    exact ih
  | skip hs _ ih =>
    cases flattenMatchStep_stepped hs
    exact ih
  | nullary hs _ _ iha ihf =>
    cases flattenMatchStep_stepped hs
    exact Nat.le_trans (fieldVars_le _ _) (Nat.le_trans iha ihf)
  | constructor hs _ _ iha ihf =>
    cases flattenMatchStep_stepped hs
    exact Nat.le_trans (fieldVars_le _ _) (Nat.le_trans iha ihf)

/-- The row that splits a column goes to the arm. -/
theorem armState_rows_ne_nil {ss : List Term} {rows : List (Row Body)} {first : Variable}
    {vars : List Variable} {name : String} {fields ps₀ : List Pattern} {r₀ : Row Body}
    {c : Counters} (hs : Splits rows name fields r₀ ps₀) :
    (armState ss rows first vars name fields c).rows ≠ [] := by
  have hsome : (armRow name (fieldVars fields c).1 first
      (Pattern.Constructor name ((fieldVars fields c).1.map .Variable)).term r₀).isSome := by
    simp [armRow, hs.head]
  obtain ⟨r', hr'⟩ := Option.isSome_iff_exists.mp hsome
  exact List.ne_nil_of_mem (List.mem_filterMap.mpr ⟨r₀, hs.mem, hr'⟩)

/-- The scrutinees after the first, when the arm's scrutinees are variables of the arm. -/
theorem scrutinees_of_arm {arity : String → Nat} {t : Term} {ss : List Term}
    {rows : List (Row Body)} {first : Variable} {vars : List Variable} {name : String}
    {fields ps₀ : List Pattern} {r₀ : Row Body} {c : Counters}
    (hinv : MatchState.Inv arity c.fresh ⟨t :: ss, rows, first :: vars⟩)
    (hs : Splits rows name fields r₀ ps₀)
    (harm : ∀ u ∈ (armState ss rows first vars name fields c).scrutinees,
      ∃ v ∈ (armState ss rows first vars name fields c).vars, isVar u v) {u : Term}
    (hu : u ∈ ss) : ∃ v ∈ vars, isVar u v := by
  obtain ⟨v, hv, huv⟩ := harm u (List.mem_append_right _ hu)
  rcases List.mem_append.mp hv with hv | hv
  · obtain ⟨x, rfl⟩ := isVar_iff.mp huv
    exact absurd .var (field_unused hinv hs.mem hs.head (List.mem_map_of_mem hv)
      (List.mem_cons_of_mem _ hu))
  · exact ⟨v, hv, huv⟩

/-- **Flattening succeeds only on variables**: with rows left, every scrutinee is a variable. -/
theorem Flattens.scrutinees {arity : String → Nat} {task : Task} {c c' : Counters} {t : Term}
    (h : Flattens task c t c') :
    ∀ st, task = .match_ st → st.Inv arity c.fresh → st.rows ≠ [] →
      ∀ u ∈ st.scrutinees, ∃ v ∈ st.vars, isVar u v := by
  induction h with
  | reply => intro st hst; cases hst
  | match_ _ _ => intro st hst; cases hst
  | destructure _ _ => intro st hst; cases hst
  | local_ _ _ _ _ => intro st hst; cases hst
  | done hs =>
    rintro st ⟨rfl⟩ _ hne
    cases flattenMatchStep_stepped hs
    exact absurd rfl hne
  | row hs _ _ _ =>
    rintro st ⟨rfl⟩ _ _ u hu
    cases flattenMatchStep_stepped hs
    cases hu
  | column hs _ ih =>
    rintro st ⟨rfl⟩ hinv hne u hu
    cases flattenMatchStep_stepped hs with
    | column hv ht hrows =>
      rcases List.mem_cons.mp hu with rfl | hu
      · exact ⟨_, hv, ht⟩
      · exact ih _ rfl (hinv.column hv hrows) (by simpa using hne) u hu
  | skip hs _ ih =>
    rintro st ⟨rfl⟩ hinv hne u hu
    cases flattenMatchStep_stepped hs with
    | skip =>
      obtain ⟨v, hv, huv⟩ := ih _ rfl hinv.skip hne u hu
      exact ⟨v, List.mem_cons_of_mem _ hv, huv⟩
  | nullary hs _ _ iha _ =>
    rintro st ⟨rfl⟩ hinv hne u hu
    cases flattenMatchStep_stepped hs with
    | nullary ht hsplit =>
      rcases List.mem_cons.mp hu with rfl | hu
      · exact ⟨_, by simp, ht⟩
      · obtain ⟨v, hv, huv⟩ := scrutinees_of_arm hinv hsplit (iha _ rfl
          (hinv.arm hsplit.mem hsplit.head hsplit.lengths) (armState_rows_ne_nil hsplit)) hu
        exact ⟨v, List.mem_cons_of_mem _ hv, huv⟩
  | constructor hs _ _ iha _ =>
    rintro st ⟨rfl⟩ hinv hne u hu
    cases flattenMatchStep_stepped hs with
    | constructor ht hsplit =>
      rcases List.mem_cons.mp hu with rfl | hu
      · exact ⟨_, by simp, ht⟩
      · obtain ⟨v, hv, huv⟩ := scrutinees_of_arm hinv hsplit (iha _ rfl
          (hinv.arm hsplit.mem hsplit.head hsplit.lengths) (armState_rows_ne_nil hsplit)) hu
        exact ⟨v, List.mem_cons_of_mem _ hv, huv⟩

/-! ## 3. Reaching the meaning -/

/-- The term reaches a reply, or `Efq` when there is none. -/
def Reaches (t : Term) : Option Term → Prop
  | some r => Steps t r
  | none => ReachesEfq t

theorem Reaches.before {t u : Term} {m : Option Term} (h : Reaches u m) (hu : Steps t u) :
    Reaches t m := by
  cases m with
  | none => exact ReachesEfq.before h hu
  | some r => exact hu.trans h

/-- The names of a parallel `let` are its patterns. -/
theorem localBindings_ok {patterns : List Pattern} {bindings : List Variable}
    (h : localBindings patterns = .ok bindings) : patterns = bindings.map .Variable := by
  induction patterns generalizing bindings with
  | nil =>
    cases h
    rfl
  | cons p patterns ih =>
    cases p with
    | Constructor name fields => cases h
    | Variable v =>
      simp only [localBindings, bind, Except.bind] at h
      split at h
      · cases h
      · rename_i vs hvs
        cases h
        rw [ih hvs]
        rfl

/-- What the environment of a task and its values bring in. -/
theorem Task.Ready.brings {arity : String → Nat} {n : Nat} {task : Task} {η : Env}
    {vals : List Term} (h : task.Ready arity n η vals) {xs : List Nat} {id : Nat}
    (hid : (η.bindAll xs vals).Brings id) : task.Outer n id := by
  rcases hid.of_bindAll with hid | ⟨v, hv, hid⟩
  · exact h.env id hid
  · exact h.values v hv id hid

/-- A `let` binds its names to the values in the environment. -/
theorem step_let {bindings : List Variable} {quant : Quant} {values : List Term} {tail : Term}
    {ρ : Env} (hlen : bindings.length = values.length) (hnodup : (idsOf bindings).Nodup)
    (hbrings : ∀ x ∈ idsOf bindings, ¬ρ.Brings x)
    (hfree : ∀ x ∈ idsOf bindings, ∀ v ∈ values, ¬FreeIn x (subst ρ v)) :
    HeadStep
      (subst ρ (.Let ((bindings.zip values).map fun (b, v) => ⟨quant, b.name, b.id, v⟩) tail))
      (subst (ρ.bindAll (idsOf bindings) (values.map (subst ρ))) tail) := by
  have hids : (((bindings.zip values).map fun (b, v) =>
      (⟨quant, b.name, b.id, v⟩ : LetBinding Term)).map fun b =>
        { b with value := subst ρ b.value }).map (·.id) = idsOf bindings := by
    simp only [List.map_map]
    conv_rhs => rw [idsOf, ← List.map_fst_zip (Nat.le_of_eq hlen), List.map_map]
    rfl
  have hvalues : (((bindings.zip values).map fun (b, v) =>
      (⟨quant, b.name, b.id, v⟩ : LetBinding Term)).map fun b =>
        { b with value := subst ρ b.value }).map (·.value) = values.map (subst ρ) := by
    simp only [List.map_map]
    conv_rhs => rw [← List.map_snd_zip (Nat.le_of_eq hlen.symm), List.map_map]
    rfl
  have hmem : ∀ b ∈ ((bindings.zip values).map fun (b, v) =>
      (⟨quant, b.name, b.id, v⟩ : LetBinding Term)).map fun b =>
        { b with value := subst ρ b.value }, b.id ∈ idsOf bindings ∧
          ∃ v ∈ values, b.value = subst ρ v := by
    intro b hb
    refine ⟨hids ▸ List.mem_map_of_mem hb, ?_⟩
    have hv := hvalues ▸ List.mem_map_of_mem (f := fun b : LetBinding Term => b.value) hb
    obtain ⟨v, hv, heq⟩ := List.mem_map.mp hv
    exact ⟨v, hv, heq.symm⟩
  rw [subst, substBindings_eq, ← dropAll_substBindings ρ ρ, ← hvalues, ← hids, ← expand_subst]
  · exact .bind
  · rw [hids]
    exact hnodup
  · exact fun b hb => hbrings b.id (hmem b hb).1
  · intro b hb d hd
    obtain ⟨v, hv, heq⟩ := (hmem d hd).2
    rw [heq]
    exact hfree b.id (hmem b hb).1 v hv

/-- **A `let` of names**, entered: its body under the values. -/
theorem reaches_local {arity : String → Nat} {n : Nat} {vars bindings : List Variable}
    {quant : Quant} {values : List Term} {inner : Body} {tail t : Term} {η : Env}
    {vals : List Term}
    (hready : Task.Ready arity n
      (.body vars (.Local (bindings.map .Variable) quant values inner)) η vals)
    (hleads : Leads bindings tail)
    (hf : finishLocal ⟨vars, bindings, quant, values⟩ tail = .ok t)
    (ih : ∀ η vals, Task.Ready arity n (.body bindings inner) η vals →
      ((∀ v ∈ vals, Value arity v) ∨ ∃ t', tail = closeOver bindings t') →
      Reaches (entered tail η vals) (inner.meaning (η.bindAll (idsOf bindings) vals))) :
    Reaches (entered t η vals)
      ((Body.Local (bindings.map .Variable) quant values inner).meaning
        (η.bindAll (idsOf vars) vals)) := by
  have hinv : BodyInv arity n vars (.Local (bindings.map .Variable) quant values inner) :=
    hready.inv
  have hinner := hinv.local_
  obtain ⟨-, ⟨hwide, hsep, hvalues, -⟩, -, hbelow⟩ := hinv
  have hlen : bindings.length = values.length := by
    simpa using (hwide ⟨bindings.map .Variable, inner⟩ (by simp)).1
  have hids : idsAll (bindings.map .Variable) = idsOf bindings := idsAll_variables bindings
  have hunused : ∀ x ∈ idsOf bindings, ∀ v ∈ values, ¬FreeIn x v := fun x hx =>
    hsep.unused ⟨bindings.map .Variable, inner⟩ (by simp) x (hids ▸ hx)
  generalize hρ : η.bindAll (idsOf vars) vals = ρ
  have hbrings : ∀ id, ρ.Brings id → id < n ∧ id ∉ idsOf bindings ∧ id ∉ inner.names := by
    intro id hid
    obtain ⟨hlt, -, hnames⟩ := hready.brings (hρ ▸ hid)
    simp only [Body.names, hids, List.mem_append, not_or] at hnames
    exact ⟨hlt, hnames⟩
  have hfree : ∀ v ∈ values, ∀ id, FreeIn id (subst ρ v) →
      id < n ∧ id ∉ idsOf bindings ∧ id ∉ inner.names := by
    intro v hv id hid
    rcases hid.of_subst with ⟨hid, -⟩ | ⟨x, u, -, hx, hu⟩
    · refine ⟨hbelow id (.inr (.inl ⟨v, by simp [Body.terms, hv], hid⟩)), fun hmem => ?_,
        hvalues v hv id hid⟩
      exact hunused id hmem v hv hid
    · exact hbrings id ⟨x, u, hx, hu⟩
  simp only [finishLocal, bind, Except.bind] at hf
  split at hf
  · cases hf
  rename_i tail₀ htake
  cases hf
  have htail := closeOver_of_takeLambdas hleads htake
  have hreach := ih ρ (values.map (subst ρ))
    ⟨hinner, hbrings, List.forall_mem_map.mpr hfree, by simp [Task.vars, hlen]⟩
    (.inr ⟨tail₀, htail⟩)
  have hmeaning : (Body.Local (bindings.map .Variable) quant values inner).meaning ρ =
      inner.meaning (ρ.bindAll (idsOf bindings) (values.map (subst ρ))) := by
    rw [Body.meaning, matchPatterns_variables (by simpa using hlen),
      Env.bindAll_eq_setAll hinner.nodup]
  rw [hmeaning]
  refine hreach.before ?_
  have hvalsLen : vals.length = vars.length := hready.length
  rw [entered_closeOver hvalsLen, hρ, htail, entered_closeOver (by simp [hlen])]
  exact (step_let hlen hinner.nodup (fun x hx hid => (hbrings x hid).2.1 hx)
    fun x hx v hv hid => (hfree v hv x hid).2.1 hx).steps

/-- **Numbers from outside a match** are from outside its arm. -/
theorem outer_arm {arity : String → Nat} {t : Term} {ss : List Term} {rows : List (Row Body)}
    {first : Variable} {vars : List Variable} {name : String} {fields ps₀ : List Pattern}
    {r₀ : Row Body} {c : Counters}
    (hinv : MatchState.Inv arity c.fresh ⟨t :: ss, rows, first :: vars⟩)
    (hsplit : Splits rows name fields r₀ ps₀) {id : Nat}
    (h : Task.Outer c.fresh id (.match_ ⟨t :: ss, rows, first :: vars⟩)) :
    Task.Outer (fieldVars fields c).2.fresh id
      (.match_ (armState ss rows first vars name fields c)) := by
  obtain ⟨hlt, hvars, hrows⟩ := h
  have hfields : id ∉ idsOf (fieldVars fields c).1 := by
    intro hf
    rcases fieldVars_mem hf with hf | ⟨hlow, -⟩
    · refine (hrows r₀ hsplit.mem).1 ?_
      simp [hsplit.head, idsAll, Pattern.ids, hf]
    · omega
  refine ⟨Nat.lt_of_lt_of_le hlt (fieldVars_le fields c), ?_, fun r' hr' => ?_⟩
  · rw [armState, idsOf, List.map_append, List.mem_append, not_or]
    exact ⟨hfields, fun hv => hvars (List.mem_cons_of_mem _ hv)⟩
  · obtain ⟨r, hr, hrow⟩ := List.mem_filterMap.mp hr'
    refine ⟨fun hid => ?_, ?_⟩
    · rcases armRow_ids hrow hid with hid | hid
      · exact (hrows r hr).1 hid
      · exact hfields hid
    · rw [(armRow_changed hinv hsplit.mem hsplit.head hsplit.lengths hr hrow).bodyNames]
      exact (hrows r hr).2

section Split

variable {arity : String → Nat} {t : Term} {ss : List Term} {rows : List (Row Body)}
  {first : Variable} {vars : List Variable} {name : String} {fields ps₀ : List Pattern}
  {r₀ : Row Body} {c c' c'' : Counters} {arm rest : Term} {η : Env} {vals : List Term}

/-- The value of the first scrutinee. -/
theorem subst_first (hinv : MatchState.Inv arity c.fresh ⟨t :: ss, rows, first :: vars⟩)
    (ht : isVar t first) (η : Env) (vals : List Term) (v : Term) :
    η.bindAll (idsOf (first :: vars)) (v :: vals) first.id = some v ∧
      subst (η.bindAll (idsOf (first :: vars)) (v :: vals)) t = v := by
  have hfirst : η.bindAll (idsOf (first :: vars)) (v :: vals) first.id = some v := by
    have hnot : first.id ∉ idsOf vars := (List.nodup_cons.mp hinv.nodup).1
    simp [Env.bindAll, Env.bindAll_of_not_mem hnot]
  obtain ⟨x, rfl⟩ := isVar_iff.mp ht
  exact ⟨hfirst, by simp only [subst, hfirst, Option.getD_some]⟩

theorem meaning_cons (ρ : Env) (rows : List (Row Body)) (vars : List Variable) :
    Task.meaning (.match_ ⟨t :: ss, rows, vars⟩) ρ =
      Body.rowsMeaning rows ρ (subst ρ t :: ss.map (subst ρ)) := rfl

/-- **The arm**: the fields come before the other values. -/
theorem reaches_arm {args : List Term}
    (hready : Task.Ready arity c.fresh (.match_ ⟨t :: ss, rows, first :: vars⟩) η
      (.Ctr name args :: vals))
    (ht : isVar t first) (hsplit : Splits rows name fields r₀ ps₀)
    (ha : Flattens (.match_ (armState ss rows first vars name fields c)) (fieldVars fields c).2
      arm c')
    (hargs : args.length = arity name) (hvals : ∀ v ∈ args ++ vals, Value arity v)
    (iha : ∀ vals, Task.Ready arity (fieldVars fields c).2.fresh
      (.match_ (armState ss rows first vars name fields c)) η vals → (∀ v ∈ vals, Value arity v) →
      Reaches (entered arm η vals) (Task.meaning (.match_ (armState ss rows first vars name fields c))
        (η.bindAll (idsOf ((fieldVars fields c).1 ++ vars)) vals))) :
    Reaches (entered (.Mat name arm rest) η (.Ctr name args :: vals))
      (Task.meaning (.match_ ⟨t :: ss, rows, first :: vars⟩)
        (η.bindAll (idsOf (first :: vars)) (.Ctr name args :: vals))) := by
  have hinv : MatchState.Inv arity c.fresh ⟨t :: ss, rows, first :: vars⟩ := hready.inv
  have hinvA := hinv.arm hsplit.mem hsplit.head hsplit.lengths
  have hlen : args.length = fields.length := by
    have hfits := (hinv.wide r₀ hsplit.mem).2
    rw [hsplit.head] at hfits
    exact hargs.trans hfits.1.1.symm
  have hflen : (idsOf (fieldVars fields c).1).length = args.length := by
    rw [idsOf, List.length_map, fieldVars_length, hlen]
  have hvlen : vals.length = vars.length := by simpa [Task.vars] using hready.length
  obtain ⟨hfirst, htv⟩ := subst_first hinv ht η vals (.Ctr name args)
  have hnodup : (idsOf (fieldVars fields c).1 ++ idsOf vars).Nodup := by
    have hnodup := hinvA.nodup
    rwa [idsOf, List.map_append] at hnodup
  obtain ⟨hfnodup, -, hdisj⟩ := List.nodup_append.mp hnodup
  have hbind : η.bindAll (idsOf ((fieldVars fields c).1 ++ vars)) (args ++ vals) =
      (η.bindAll (idsOf (fieldVars fields c).1) args).bindAll (idsOf vars) vals := by
    rw [idsOf, List.map_append, Env.bindAll_append hflen]
  have hfields : (idsOf (fieldVars fields c).1).map
      (η.bindAll (idsOf ((fieldVars fields c).1 ++ vars)) (args ++ vals)) = args.map some := by
    rw [hbind, ← Env.map_bindAll (ρ := η) hflen hfnodup]
    exact List.map_congr_left fun f hf =>
      Env.bindAll_of_not_mem (fun hv => hdisj f hf f hv rfl) vals
  have hagree : ∀ y, y ≠ first.id → y ∉ idsOf (fieldVars fields c).1 →
      η.bindAll (idsOf (first :: vars)) (.Ctr name args :: vals) y =
        η.bindAll (idsOf ((fieldVars fields c).1 ++ vars)) (args ++ vals) y := by
    intro y hne hnot
    rw [hbind]
    change (η.set first.id (.Ctr name args)).bindAll (idsOf vars) vals y = _
    refine Env.bindAll_agree ?_ _ _
    rw [Env.bindAll_of_not_mem hnot, Env.set_of_ne _ _ hne]
  have hss : ss.map (subst (η.bindAll (idsOf (first :: vars)) (.Ctr name args :: vals))) =
      ss.map (subst (η.bindAll (idsOf ((fieldVars fields c).1 ++ vars)) (args ++ vals))) := by
    refine List.map_congr_left fun u hu => ?_
    obtain ⟨v, hv, huv⟩ := scrutinees_of_arm hinv hsplit
      (ha.scrutinees _ rfl hinvA (armState_rows_ne_nil hsplit)) hu
    obtain ⟨x, rfl⟩ := isVar_iff.mp huv
    have hmem : v.id ∈ idsOf vars := List.mem_map_of_mem hv
    have hne : v.id ≠ first.id := fun heq =>
      (List.nodup_cons.mp hinv.nodup).1 (show first.id ∈ idsOf vars from heq ▸ hmem)
    simp only [subst, hagree v.id hne fun hf => hdisj _ hf _ hmem rfl]
  have hreach := iha (args ++ vals)
    { inv := hinvA
      env := fun id hid => outer_arm hinv hsplit (hready.env id hid)
      values := fun v hv id hid => absurd hid ((hvals v hv).closed id)
      length := by simp [Task.vars, armState, fieldVars_length, hlen, hvlen] } hvals
  have hmeaning := rowsMeaning_arm hinv ht hsplit hlen hfirst hfields hagree hss
  have hscrutinees : (armState ss rows first vars name fields c).scrutinees.map
      (subst (η.bindAll (idsOf ((fieldVars fields c).1 ++ vars)) (args ++ vals))) =
      args ++ ss.map (subst (η.bindAll (idsOf ((fieldVars fields c).1 ++ vars)) (args ++ vals))) := by
    rw [armState, List.map_append, map_subst_term hfields]
  rw [Task.meaning, hscrutinees] at hreach
  rw [meaning_cons, htv, hmeaning]
  refine hreach.before (Steps.trans (Steps.apps HeadStep.hit.steps vals) ?_)
  rw [← apps_append]
  refine steps_entered ha.leads ?_ (fun x hx hid => ?_) fun x hx v hv => (hvals v hv).closed x
  · simp [Task.vars, armState, fieldVars_length, hlen, hvlen]
  · exact (outer_arm hinv hsplit (hready.env x hid)).2.1 hx

/-- **The fallback**: it takes the same values. -/
theorem reaches_fallback {d : String} {args : List Term} (hd : d ≠ name)
    (hready : Task.Ready arity c.fresh (.match_ ⟨t :: ss, rows, first :: vars⟩) η
      (.Ctr d args :: vals))
    (ht : isVar t first) (hle : c.fresh ≤ c'.fresh)
    (hf : Flattens (.match_ ⟨t :: ss, rows.filterMap (fallbackRow name), first :: vars⟩) c'
      rest c'')
    (hvals : ∀ v ∈ Term.Ctr d args :: vals, Value arity v)
    (ihf : Task.Ready arity c'.fresh
      (.match_ ⟨t :: ss, rows.filterMap (fallbackRow name), first :: vars⟩) η
        (.Ctr d args :: vals) →
      Reaches (entered rest η (.Ctr d args :: vals))
        (Task.meaning (.match_ ⟨t :: ss, rows.filterMap (fallbackRow name), first :: vars⟩)
          (η.bindAll (idsOf (first :: vars)) (.Ctr d args :: vals)))) :
    Reaches (entered (.Mat name arm rest) η (.Ctr d args :: vals))
      (Task.meaning (.match_ ⟨t :: ss, rows, first :: vars⟩)
        (η.bindAll (idsOf (first :: vars)) (.Ctr d args :: vals))) := by
  have hinv : MatchState.Inv arity c.fresh ⟨t :: ss, rows, first :: vars⟩ := hready.inv
  obtain ⟨-, htv⟩ := subst_first hinv ht η vals (.Ctr d args)
  have hreach := ihf (hready.next ((hinv.fallback name).mono hle)
    (fun id ⟨hlt, hv, hr⟩ => ⟨Nat.lt_of_lt_of_le hlt hle, hv, fun r hmem => by
      obtain ⟨s, hs, hrow⟩ := List.mem_filterMap.mp hmem
      exact fallbackRow_eq hrow ▸ hr s hs⟩) rfl)
  rw [meaning_cons, htv] at hreach ⊢
  rw [rowsMeaning_fallback hd]
  refine hreach.before (Steps.trans (Steps.apps (HeadStep.miss hd).steps vals) ?_)
  refine steps_entered hf.leads hready.length (fun x hx hid => ?_)
    fun x hx v hv => (hvals v hv).closed x
  exact (hready.env x hid).2.1 hx

/-- **A column with a constructor**, entered: the arm or the fallback. -/
theorem reaches_split
    (hready : Task.Ready arity c.fresh (.match_ ⟨t :: ss, rows, first :: vars⟩) η vals)
    (ht : isVar t first) (hsplit : Splits rows name fields r₀ ps₀)
    (ha : Flattens (.match_ (armState ss rows first vars name fields c)) (fieldVars fields c).2
      arm c')
    (hf : Flattens (.match_ ⟨t :: ss, rows.filterMap (fallbackRow name), first :: vars⟩) c'
      rest c'')
    (hvals : ∀ v ∈ vals, Value arity v)
    (iha : ∀ vals, Task.Ready arity (fieldVars fields c).2.fresh
      (.match_ (armState ss rows first vars name fields c)) η vals → (∀ v ∈ vals, Value arity v) →
      Reaches (entered arm η vals) (Task.meaning (.match_ (armState ss rows first vars name fields c))
        (η.bindAll (idsOf ((fieldVars fields c).1 ++ vars)) vals)))
    (ihf : Task.Ready arity c'.fresh
      (.match_ ⟨t :: ss, rows.filterMap (fallbackRow name), first :: vars⟩) η vals →
      Reaches (entered rest η vals)
        (Task.meaning (.match_ ⟨t :: ss, rows.filterMap (fallbackRow name), first :: vars⟩)
          (η.bindAll (idsOf (first :: vars)) vals))) :
    Reaches (entered (.Mat name arm rest) η vals)
      (Task.meaning (.match_ ⟨t :: ss, rows, first :: vars⟩)
        (η.bindAll (idsOf (first :: vars)) vals)) := by
  cases vals with
  | nil =>
    have hlen := hready.length
    simp [Task.vars] at hlen
  | cons v vals =>
    cases hvals v (by simp) with
    | ctr hlen hargs =>
      rename_i d args
      by_cases hd : d = name
      · subst hd
        refine reaches_arm hready ht hsplit ha hlen (fun u hu => ?_) iha
        rcases List.mem_append.mp hu with hu | hu
        · exact hargs u hu
        · exact hvals u (List.mem_cons_of_mem _ hu)
      · exact reaches_fallback hd hready ht
          (Nat.le_trans (fieldVars_le fields c) ha.le) hf hvals ihf

end Split

/-- Every variable has a value. -/
theorem bindAll_var {vars : List Variable} {vals : List Term} (η : Env)
    (hnodup : (idsOf vars).Nodup) (hlen : vals.length = vars.length) {v : Variable}
    (hv : v ∈ vars) : ∃ w, η.bindAll (idsOf vars) vals v.id = some w := by
  have hids : (idsOf vars).length = vals.length := by simp [hlen]
  have hmap := Env.map_bindAll (ρ := η) hids hnodup
  have hmem : η.bindAll (idsOf vars) vals v.id ∈ vals.map some :=
    hmap ▸ List.mem_map_of_mem (List.mem_map_of_mem hv)
  obtain ⟨w, -, hw⟩ := List.mem_map.mp hmem
  exact ⟨w, hw.symm⟩

/-- A variable that is passed over takes its value into the environment. -/
theorem Task.Ready.skip {arity : String → Nat} {n : Nat} {ss : List Term} {rows : List (Row Body)}
    {first : Variable} {vars : List Variable} {η : Env} {w : Term} {vals : List Term}
    (h : Task.Ready arity n (.match_ ⟨ss, rows, first :: vars⟩) η (w :: vals))
    (hinv : MatchState.Inv arity n ⟨ss, rows, first :: vars⟩) :
    Task.Ready arity n (.match_ ⟨ss, rows, vars⟩) (η.set first.id w) vals where
  inv := hinv.skip
  env := by
    intro id hid
    have hout : Task.Outer n id (.match_ ⟨ss, rows, first :: vars⟩) := by
      rcases hid.of_set with hid | hid
      · exact h.env id hid
      · exact h.values w (by simp) id hid
    exact ⟨hout.1, fun hv => hout.2.1 (List.mem_cons_of_mem _ hv), hout.2.2⟩
  values := by
    intro v hv id hid
    obtain ⟨hlt, hout, hr⟩ := h.values v (List.mem_cons_of_mem _ hv) id hid
    exact ⟨hlt, fun hv => hout (List.mem_cons_of_mem _ hv), hr⟩
  length := by simpa [Task.vars] using h.length

/-- **Every flattened term reaches its meaning**, on constructor values, or on any values when all
of them go into leading lambdas. -/
theorem Flattens.reaches {arity : String → Nat} {task : Task} {c c' : Counters} {t : Term}
    (h : Flattens task c t c') :
    ∀ η vals, task.Ready arity c.fresh η vals →
      ((∀ v ∈ vals, Value arity v) ∨ ∃ tail, t = closeOver task.vars tail) →
      Reaches (entered t η vals) (task.meaning (η.bindAll (idsOf task.vars) vals)) := by
  induction h with
  | reply =>
    intro η vals hready hvals
    rename_i vars value c
    have hlen : vals.length = vars.length := hready.length
    rw [entered_closeOver hlen]
    exact .refl
  | match_ _ ih =>
    intro η vals hready hvals
    have hinv := BodyInv.match_ hready.inv
    refine ih η vals (hready.next hinv (fun id h => ⟨h.1, h.2.1, fun r hr => ?_⟩) rfl) hvals
    have hn := h.2.2
    simp only [Body.names, Body.rowsNames_eq, List.mem_flatMap, List.mem_append, not_exists,
      not_and, not_or] at hn
    exact hn r hr
  | destructure _ ih =>
    intro η vals hready hvals
    have hinv := BodyInv.destructure hready.inv
    have hreach := ih η vals
      (hready.next hinv (fun id h => ⟨h.1, h.2.1, fun r hr => ?_⟩) rfl) hvals
    · rwa [Task.meaning, Body.meaning_local]
    · obtain rfl := List.mem_singleton.mp hr
      simpa only [Body.names, List.mem_append, not_or] using h.2.2
  | local_ hb h hf ih =>
    intro η vals hready _
    obtain rfl := localBindings_ok hb
    exact reaches_local hready h.leads hf ih
  | done hs =>
    intro η vals hready _
    cases flattenMatchStep_stepped hs
    exact ⟨vals, .refl⟩
  | row hs hr _ ih =>
    intro η vals hready hvals
    cases flattenMatchStep_stepped hs with
    | body =>
      cases hr
      have hinv := MatchState.Inv.row hready.inv (List.mem_cons_self)
      have hreach := ih η vals (hready.next hinv
        (fun id h => ⟨h.1, h.2.1, (h.2.2 _ List.mem_cons_self).2⟩) rfl) hvals
      have hwide := (hready.inv.wide _ List.mem_cons_self).1
      have hnil := List.length_eq_zero_iff.mp hwide
      rw [Task.meaning, Body.rowsMeaning_cons, Body.rowMeaning, hnil]
      exact hreach
  | column hs _ ih =>
    intro η vals hready hvals
    cases flattenMatchStep_stepped hs with
    | column hv ht hrows =>
      have hinv := MatchState.Inv.column hready.inv hv hrows
      have hreach := ih η vals (hready.next hinv
        (fun id h => ⟨h.1, h.2.1, fun r' hr' => ?_⟩) rfl) hvals
      · obtain ⟨w, hw⟩ := bindAll_var η hready.inv.nodup hready.length hv
        exact Eq.mpr (congrArg (Reaches _) (rowsMeaning_column hready.inv hv ht hrows hw)) hreach
      · obtain ⟨r, hmem, rfl⟩ := List.mem_map.mp hr'
        rw [dropColumn_names]
        exact ⟨fun hid => (h.2.2 r hmem).1 (dropColumn_ids hid), (h.2.2 r hmem).2⟩
  | skip hs _ ih =>
    intro η vals hready hvals
    cases flattenMatchStep_stepped hs with
    | skip =>
      cases vals with
      | nil =>
        have hlen := hready.length
        simp [Task.vars] at hlen
      | cons w vals =>
        refine ih _ vals (hready.skip hready.inv) (hvals.imp (fun hvals v hv => ?_) ?_)
        · exact hvals v (List.mem_cons_of_mem _ hv)
        · rintro ⟨tail, htail⟩
          exact ⟨tail, (Term.Lam.inj htail).2.2⟩
  | nullary hs ha hf iha ihf =>
    intro η vals hready hvals
    cases flattenMatchStep_stepped hs with
    | nullary ht hsplit =>
      have hvals := hvals.resolve_right (by rintro ⟨tail, htail⟩; cases htail)
      exact reaches_split hready ht hsplit ha hf hvals (fun vals hr hv => iha η vals hr (.inl hv))
        fun hr => ihf η vals hr (.inl hvals)
  | constructor hs ha hf iha ihf =>
    intro η vals hready hvals
    cases flattenMatchStep_stepped hs with
    | constructor ht hsplit =>
      have hvals := hvals.resolve_right (by rintro ⟨tail, htail⟩; cases htail)
      exact reaches_split hready ht hsplit ha hf hvals (fun vals hr hv => iha η vals hr (.inl hv))
        fun hr => ihf η vals hr (.inl hvals)

/-! ## 4. The first match -/

/-- **Match compilation preserves the first match.**  A body whose names are apart, flattened by the
driver and applied to closed constructor values, runs to what the body means there: the reply of the
first row all of whose patterns match, with each name of the row replaced by the component it
matched.  Every other name keeps its outer meaning, whatever closed terms `θ` gives to such names.
It runs into `Efq` exactly when no row matches, or the reply itself does. -/
theorem flatten_first_match {arity : String → Nat} {limit : Option Nat} {turns depth : Nat}
    {body : Body} {vars : List Variable} {c c' : Counters} {t : Term}
    (hrun : flattenDriver limit turns ⟨.Body body vars depth, [], c⟩ = some (.ok (t, c')))
    (hbody : BodyInv arity c.fresh vars body) {θ : Env}
    (hθ : ∀ x u id, θ x = some u → ¬FreeIn id u) {vals : List Term}
    (hlen : vals.length = vars.length) (hvals : ∀ v ∈ vals, Value arity v) :
    (∀ r, body.meaning (θ.bindAll (idsOf vars) vals) = some r →
        Steps (apps (subst θ t) vals) r) ∧
      (ReachesEfq (apps (subst θ t) vals) ↔
        body.meaning (θ.bindAll (idsOf vars) vals) = none ∨
          ∃ r, body.meaning (θ.bindAll (idsOf vars) vals) = some r ∧ ReachesEfq r) := by
  have hflat := flattenDriver_flattens hrun
  have hclosed : ∀ v ∈ vals, ∀ id, ¬FreeIn id v := fun v hv => (hvals v hv).closed
  have henv : ∀ id, ¬θ.Brings id := fun id ⟨x, u, hx, hu⟩ => hθ x u id hx hu
  have hready : Task.Ready arity c.fresh (.body vars body) θ vals :=
    ⟨hbody, fun id hid => absurd hid (henv id), fun v hv id hid => absurd hid (hclosed v hv id),
      hlen⟩
  have hreach : Reaches (apps (subst θ t) vals) (body.meaning (θ.bindAll (idsOf vars) vals)) :=
    (hflat.reaches θ vals hready (.inl hvals)).before (steps_entered hflat.leads hlen
      (fun x _ => henv x) fun x _ v hv => hclosed v hv x)
  cases hm : body.meaning (θ.bindAll (idsOf vars) vals) with
  | none =>
    rw [hm] at hreach
    exact ⟨fun r hr => absurd hr (by simp), fun _ => .inl rfl, fun _ => hreach⟩
  | some r =>
    rw [hm] at hreach
    refine ⟨fun r' hr' => Option.some.inj hr' ▸ hreach, fun hefq => .inr ⟨r, rfl, ?_⟩, ?_⟩
    · exact hefq.after hreach
    · rintro (hnone | ⟨r', hr', hefq⟩)
      · cases hnone
      · exact (Option.some.inj hr' ▸ hefq).before hreach

/-- `match x { Succ(Succ(p)): p; q: q }`, with `x`, `p` and `q` numbered 0, 1 and 2. -/
def halfBody : Body :=
  .Match [.Var "x" 0]
    [⟨[.Constructor "Succ" [.Constructor "Succ" [.Variable ⟨"p", 1⟩]]], .Reply (.Var "p" 1)⟩,
      ⟨[.Variable ⟨"q", 2⟩], .Reply (.Var "q" 2)⟩]

/-- The term it is flattened to. -/
def halfTerm : Term :=
  .Mat "Succ"
    (.Mat "Succ" (.Lam "p" 1 (.Var "p" 1)) (.Lam "_0" 3 (.Ctr "Succ" [.Var "_0" 3])))
    (.Lam "x" 0 (.Var "x" 0))

/-- `Zero` has no field and `Succ` has one. -/
def natArity (name : String) : Nat := if name = "Succ" then 1 else 0

theorem halfBody_inv : BodyInv natArity 3 [⟨"x", 0⟩] halfBody where
  nodup := by simp
  good := by
    refine ⟨?_, ⟨?_, ?_, ?_, ?_⟩, ?_⟩
    · simp [Wide, FitAll, Pattern.Fits, natArity]
    · simp [idsAll, Pattern.ids]
    · simp [idsAll, Pattern.ids, Body.Uses, Body.terms]
      omega
    · simp [Body.Binds, Body.terms, Body.names]
    · simp [idsAll, Pattern.ids]
    · simp [Body.RowsGood, Body.Good]
  quiet := by simp [halfBody, Body.Binds, Body.terms, Body.rowsTerms, Body.names, Body.rowsNames,
    idsAll, Pattern.ids]
  below := by
    simp [halfBody, Body.Mentions, Body.Uses, Body.Binds, Body.terms, Body.rowsTerms, Body.names,
      Body.rowsNames, idsAll, Pattern.ids]

/-- At one, the second row is the first that matches. -/
theorem flatten_first_match_half :
    Steps (apps (subst .empty halfTerm) [.Ctr "Succ" [.Ctr "Zero" []]])
      (.Ctr "Succ" [.Ctr "Zero" []]) := by
  have hone : ∀ v ∈ [Term.Ctr "Succ" [.Ctr "Zero" []]], Value natArity v := by
    intro v hv
    obtain rfl := List.mem_singleton.mp hv
    refine .ctr rfl fun a ha => ?_
    obtain rfl := List.mem_singleton.mp ha
    exact .ctr rfl fun b hb => by cases hb
  have hrun : flattenDriver (some 64) 100 ⟨.Body halfBody [⟨"x", 0⟩] 0, [], ⟨3, 0⟩⟩ =
      some (.ok (halfTerm, ⟨4, 1⟩)) := rfl
  exact (flatten_first_match hrun halfBody_inv (fun x u id hx => by cases hx) rfl hone).1 _ rfl

end TeamyBend.Syntax
