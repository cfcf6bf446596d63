/-
# The order of kinds

`compare` decides whether one kind fits another by splitting meets of quantities on either side
(`compare_inner`, the case of two `Typ`), after `whnf` has simplified them.  Read as expressions
over two ranks, with `&0` and `&1` lowest and `&2` on top, the answer is exact.

`Spells` says which expression a term stands for; a variable with an alias stands for what its
alias does.  `Settles` is the form of every lemma about a run: whatever it returns is right, and it
does return once the bound, the fuel and the depth suffice.  The depth that suffices is counted,
because the kernel has only 128 levels.
-/
import TeamyBend.Kernel.Reduce
import TeamyBend.Library.Meets

namespace TeamyBend.Kernel

open TeamyBend.Library.Meets

variable {α β : Type} {aliases : Nat → Option Term} {d d' : Nat} {a b g h r s t : Term}
  {x y z : Expr Nat}

/-! ## 1. Runs that settle -/

/-- Whatever `f` returns has the property, and `f` returns with `d` levels when the fuel and the
bound are at least `c`. -/
def SettlesWithin (aliases : Nat → Option Term) (d c : Nat) (f : Nat → M α) (Q : α → Prop) :
    Prop :=
  ∀ (gas : Nat) (e : Engine), e.aliases = aliases →
    (∀ a e', Returns (f gas) e a e' → Q a ∧ e'.aliases = aliases ∧ e'.depth = e.depth) ∧
    (c ≤ gas → c ≤ e.fuel → e.depth + d ≤ 128 →
      ∃ a e', Returns (f gas) e a e' ∧ e.fuel ≤ e'.fuel + c)

/-- Whatever `f` returns has the property, and `f` returns with `d` levels, enough fuel and a
large enough bound. -/
def Settles (aliases : Nat → Option Term) (d : Nat) (f : Nat → M α) (Q : α → Prop) : Prop :=
  ∃ c, SettlesWithin aliases d c f Q

theorem SettlesWithin.mono {f : Nat → M α} {Q : α → Prop} {c c' : Nat}
    (hf : SettlesWithin aliases d c f Q) (hc : c ≤ c') : SettlesWithin aliases d c' f Q := by
  refine fun gas e he => ⟨(hf gas e he).1, fun hgas hfuel hdepth => ?_⟩
  obtain ⟨a, e', hret, hleft⟩ := (hf gas e he).2 (by omega) (by omega) hdepth
  exact ⟨a, e', hret, by omega⟩

namespace Settles

variable {f F : Nat → M α} {Q : α → Prop} {R : β → Prop}

theorem mono (hf : Settles aliases d f Q) (hd : d ≤ d') : Settles aliases d' f Q := by
  obtain ⟨c, hc⟩ := hf
  refine ⟨c, fun gas e he => ⟨(hc gas e he).1, fun hgas hfuel hdepth => ?_⟩⟩
  exact (hc gas e he).2 hgas hfuel (by omega)

theorem imp {Q' : α → Prop} (hf : Settles aliases d f Q) (hQ : ∀ a, Q a → Q' a) :
    Settles aliases d f Q' := by
  obtain ⟨c, hc⟩ := hf
  refine ⟨c, fun gas e he => ⟨fun a e' hret => ?_, (hc gas e he).2⟩⟩
  obtain ⟨ha, he'⟩ := (hc gas e he).1 a e' hret
  exact ⟨hQ a ha, he'⟩

theorem pure {a : α} (h : Q a) : Settles aliases d (fun _ => Pure.pure a) Q := by
  refine ⟨0, fun gas e he => ⟨fun a' e' hret => ?_, fun _ _ _ => ?_⟩⟩
  · obtain ⟨rfl, rfl⟩ := returns_pure.mp hret
    exact ⟨h, he, rfl⟩
  · exact ⟨a, e, returns_pure.mpr ⟨rfl, rfl⟩, by omega⟩

theorem step : Settles aliases d (fun _ => Kernel.step) (· = ()) := by
  refine ⟨1, fun gas e he => ⟨fun u e' hret => ?_, fun _ hfuel _ => ?_⟩⟩
  · obtain ⟨-, rfl⟩ := returns_step.mp hret
    exact ⟨rfl, he, rfl⟩
  · exact ⟨(), _, returns_step.mpr ⟨by omega, rfl⟩, by simp only; omega⟩

theorem ptrEq : Settles aliases d (fun _ => Kernel.ptrEq a b) fun same => same = true → a = b := by
  refine ⟨0, fun gas e he => ⟨fun same e' hret => ?_, fun _ _ _ => ?_⟩⟩
  · obtain ⟨hsame, rfl⟩ := returns_ptrEq.mp hret
    exact ⟨fun htrue => e.pointers.sound e.fuel a b (hsame.trans htrue), he, rfl⟩
  · exact ⟨_, e, returns_ptrEq.mpr ⟨rfl, rfl⟩, by omega⟩

/-- A run after a result, with one bound for all the results. -/
theorem bind {G : α → Nat → M β} (hf : Settles aliases d f Q) (c : Nat)
    (hG : ∀ a, Q a → SettlesWithin aliases d c (G a) R) :
    Settles aliases d (fun gas => f gas >>= fun a => G a gas) R := by
  obtain ⟨c₁, hc₁⟩ := hf
  refine ⟨c₁ + c, fun gas e he => ⟨fun b e' hret => ?_, fun hgas hfuel hdepth => ?_⟩⟩
  · obtain ⟨a, e₁, hfirst, hsecond⟩ := returns_bind.mp hret
    obtain ⟨ha, he₁, hd₁⟩ := (hc₁ gas e he).1 a e₁ hfirst
    obtain ⟨hb, he', hd'⟩ := (hG a ha gas e₁ he₁).1 b e' hsecond
    exact ⟨hb, he', hd'.trans hd₁⟩
  · obtain ⟨a, e₁, hfirst, hleft⟩ := (hc₁ gas e he).2 (by omega) (by omega) hdepth
    obtain ⟨ha, he₁, hd₁⟩ := (hc₁ gas e he).1 a e₁ hfirst
    obtain ⟨b, e', hsecond, hleft'⟩ :=
      (hG a ha gas e₁ he₁).2 (by omega) (by omega) (by rw [hd₁]; exact hdepth)
    exact ⟨b, e', returns_bind.mpr ⟨a, e₁, hfirst, hsecond⟩, by omega⟩

/-- A run after a result that is known. -/
theorem bind_eq {G : α → Nat → M β} {a : α} (hf : Settles aliases d f (· = a))
    (hG : Settles aliases d (G a) R) :
    Settles aliases d (fun gas => f gas >>= fun a => G a gas) R := by
  obtain ⟨c, hc⟩ := hG
  refine hf.bind c fun a' ha => ?_
  rw [ha]
  exact hc

/-- A run after a test. -/
theorem bind_bool {f : Nat → M Bool} {Q : Bool → Prop} {G : Bool → Nat → M β}
    (hf : Settles aliases d f Q) (hG : ∀ b, Q b → Settles aliases d (G b) R) :
    Settles aliases d (fun gas => f gas >>= fun b => G b gas) R := by
  have hbound : ∀ b, ∃ c, Q b → SettlesWithin aliases d c (G b) R := by
    intro b
    by_cases hb : Q b
    · obtain ⟨c, hc⟩ := hG b hb
      exact ⟨c, fun _ => hc⟩
    · exact ⟨0, fun h => absurd h hb⟩
  obtain ⟨ct, hct⟩ := hbound true
  obtain ⟨cf, hcf⟩ := hbound false
  refine hf.bind (max ct cf) fun b hb => ?_
  cases b with
  | true => exact (hct hb).mono (Nat.le_max_left ct cf)
  | false => exact (hcf hb).mono (Nat.le_max_right ct cf)

/-- A run after a step. -/
theorem after_step {f : Nat → M β} (hf : Settles aliases d f R) :
    Settles aliases d (fun gas => Kernel.step >>= fun _ => f gas) R :=
  step.bind_eq (G := fun _ => f) hf

/-- `F` is `f` once the bound is large enough, and gives up below. -/
theorem eventually (hf : Settles aliases d f Q) (n : Nat) (hlow : ∀ gas < n, F gas = exhausted)
    (hF : ∀ gas, n ≤ gas → F gas = f gas) : Settles aliases d F Q := by
  obtain ⟨c, hc⟩ := hf
  refine ⟨c + n, fun gas e he => ⟨fun a e' hret => ?_, fun hgas hfuel hdepth => ?_⟩⟩
  · by_cases hgas : n ≤ gas
    · rw [hF gas hgas] at hret
      exact (hc gas e he).1 a e' hret
    · rw [hlow gas (by omega)] at hret
      exact absurd hret returns_exhausted
  · obtain ⟨a, e', hret, hleft⟩ := (hc gas e he).2 (by omega) (by omega) hdepth
    rw [hF gas (by omega)]
    exact ⟨a, e', hret, by omega⟩

/-- A charged rule takes one level more. -/
theorem charged (hf : Settles aliases d f Q) (hzero : F 0 = exhausted)
    (hsucc : ∀ gas, F (gas + 1) = Kernel.charged (f gas)) : Settles aliases (d + 1) F Q := by
  obtain ⟨c, hc⟩ := hf
  refine ⟨c + 1, fun gas e he => ?_⟩
  cases gas with
  | zero =>
    rw [hzero]
    exact ⟨fun a e' hret => absurd hret returns_exhausted, fun hgas => by omega⟩
  | succ gas =>
    rw [hsucc]
    have hrun := hc gas { e with fuel := e.fuel - 1, depth := e.depth + 1 } he
    constructor
    · intro a e' hret
      obtain ⟨-, -, e₁, hinner, rfl⟩ := returns_charged.mp hret
      obtain ⟨ha, he₁, hd₁⟩ := hrun.1 a e₁ hinner
      refine ⟨ha, he₁, ?_⟩
      simp only [hd₁]
      omega
    · intro hgas hfuel hdepth
      obtain ⟨a, e₁, hinner, hleft⟩ :=
        hrun.2 (by omega) (by simp only; omega) (by simp only; omega)
      refine ⟨a, _, returns_charged.mpr ⟨by omega, by omega, e₁, hinner, rfl⟩, ?_⟩
      simp only at hleft ⊢
      omega

end Settles

/-! ## 2. Terms that spell quantities -/

/-- `t` spells the expression. -/
inductive Spells (aliases : Nat → Option Term) : Term → Expr Nat → Prop where
  | none : Spells aliases (.Qua .None) .low
  | lone : Spells aliases (.Qua .Lone) .low
  | many : Spells aliases (.Qua .Many) .top
  | var {name : String} {id : Nat} (h : aliases id = none) : Spells aliases (.Var name id) (.var id)
  | aliased {name : String} {id : Nat} {t : Term} {x : Expr Nat} (h : aliases id = some t)
      (ht : Spells aliases t x) : Spells aliases (.Var name id) x
  | min {a b : Term} {x y : Expr Nat} (ha : Spells aliases a x) (hb : Spells aliases b y) :
      Spells aliases (.Min a b) (.meet x y)

/-- A term spells one expression. -/
theorem Spells.unique (hx : Spells aliases t x) (hy : Spells aliases t y) : x = y := by
  induction hx generalizing y with
  | none => cases hy; rfl
  | lone => cases hy; rfl
  | many => cases hy; rfl
  | var h =>
    cases hy with
    | var h' => rfl
    | aliased h' ht' => rw [h] at h'; cases h'
  | aliased h ht ih =>
    cases hy with
    | var h' => rw [h] at h'; cases h'
    | aliased h' ht' =>
      rw [h] at h'
      cases h'
      exact ih ht'
  | min ha hb iha ihb =>
    cases hy with
    | min ha' hb' => rw [iha ha', ihb hb']

/-- `Spells` for a weak head normal form. -/
inductive Normal (aliases : Nat → Option Term) : Term → Expr Nat → Prop where
  | none : Normal aliases (.Qua .None) .low
  | lone : Normal aliases (.Qua .Lone) .low
  | many : Normal aliases (.Qua .Many) .top
  | var {name : String} {id : Nat} (h : aliases id = none) : Normal aliases (.Var name id) (.var id)
  | min {a b : Term} {x y : Expr Nat} (ha : Spells aliases a x) (hb : Spells aliases b y) :
      Normal aliases (.Min a b) (.meet x y)

theorem Normal.spells (h : Normal aliases t x) : Spells aliases t x := by
  cases h with
  | none => exact .none
  | lone => exact .lone
  | many => exact .many
  | var h => exact .var h
  | min ha hb => exact .min ha hb

/-- A weak head normal form that stands for the expression, with no deeper meets. -/
def Stands (aliases : Nat → Option Term) (r : Term) (x : Expr Nat) : Prop :=
  ∃ y, Normal aliases r y ∧ y.height ≤ x.height ∧ ∀ ρ, y.rank ρ = x.rank ρ

theorem Normal.stands (h : Normal aliases t x) : Stands aliases t x :=
  ⟨x, h, Nat.le_refl _, fun _ => rfl⟩

/-! ## 3. Weak head normal forms of quantities -/

/-- What `minOf` keeps of two sides stands for their meet. -/
theorem stands_minOf (ha : Stands aliases a x) (hb : Stands aliases b y) :
    Stands aliases (minOf a b) (.meet x y) := by
  obtain ⟨x', hx', hxh, hxr⟩ := ha
  obtain ⟨y', hy', hyh, hyr⟩ := hb
  have hrank : ∀ ρ, (Expr.meet x y).rank ρ = min (x'.rank ρ) (y'.rank ρ) := fun ρ => by
    rw [Expr.rank, hxr, hyr]
  have hheight : (Expr.meet x y).height = max x.height y.height + 1 := rfl
  have hleft : ∀ ρ, min (x'.rank ρ) false = false := fun ρ => min_eq_right (Bool.false_le _)
  have htop : ∀ ρ, min (x'.rank ρ) true = x'.rank ρ := fun ρ => min_eq_left (Bool.le_true _)
  have hkeepX : minOf a b = a → (∀ ρ, y'.rank ρ = true) →
      Stands aliases (minOf a b) (.meet x y) := by
    intro hmin htop'
    rw [hmin]
    exact ⟨x', hx', by omega, fun ρ => by rw [hrank, htop', htop]⟩
  have hkeepY : minOf a b = b → (∀ ρ, y'.rank ρ = false) →
      Stands aliases (minOf a b) (.meet x y) := by
    intro hmin hlow
    rw [hmin]
    exact ⟨y', hy', by omega, fun ρ => by rw [hrank, hlow, hleft]⟩
  have hboth : minOf a b = .Min a b → Stands aliases (minOf a b) (.meet x y) := by
    intro hmin
    rw [hmin]
    refine ⟨.meet x' y', .min hx'.spells hy'.spells, ?_, fun ρ => (hrank ρ).symm⟩
    simp only [Expr.height]
    omega
  cases hy' with
  | none => exact hkeepY (by cases a <;> rfl) fun _ => rfl
  | many => exact hkeepX (by cases a <;> rfl) fun _ => rfl
  | lone =>
    -- `&1` decides the meet with another `&q`, and is kept beside anything else.
    cases hx' with
    | none => exact hkeepY rfl fun _ => rfl
    | lone => exact hkeepY rfl fun _ => rfl
    | many => exact hkeepY rfl fun _ => rfl
    | var h => exact hboth rfl
    | min h h' => exact hboth rfl
  | var h => exact hboth (by cases hx' <;> rfl)
  | min h h' => exact hboth (by cases hx' <;> rfl)

/-- The turns of `whnf_inner` from `t` end in `r`. -/
def Turns (aliases : Nat → Option Term) (d : Nat) (t r : Term) : Prop :=
  ∀ k, Settles aliases d (fun gas => whnfInner (whnf gas) gas (gas - k) t) (· = r)

theorem settles_whnf (h : Turns aliases d t r) :
    Settles aliases (d + 1) (fun gas => whnf gas t) (· = r) :=
  Settles.charged (h 0) rfl fun _ => rfl

/-- What a turn leads to. -/
def afterTurn (gas turns : Nat) : Flow → M Term
  | .Break result => return result
  | .Continue next => do
    step
    whnfInner (whnf gas) gas turns next

theorem turns_of_turn
    (h : ∀ k, Settles aliases d
      (fun gas => whnfTurn (whnf gas) gas t >>= afterTurn gas (gas - (k + 1))) (· = r)) :
    Turns aliases d t r := by
  intro k
  refine Settles.eventually (h k) (k + 1) (fun gas hgas => ?_) fun gas hgas => ?_
  · rw [Nat.sub_eq_zero_of_le (by omega)]
    rfl
  · obtain ⟨n, hn⟩ : ∃ n, gas - k = n + 1 := ⟨gas - k - 1, by omega⟩
    have hn' : gas - (k + 1) = n := by omega
    rw [hn, hn', whnfInner]
    congr 1

theorem turns_done (h : ∀ gas, whnfTurn (whnf gas) gas t = Pure.pure (.Break t)) :
    Turns aliases d t t := by
  refine turns_of_turn fun k => ?_
  have hrun : ∀ gas, (whnfTurn (whnf gas) gas t >>= afterTurn gas (gas - (k + 1))) =
      Pure.pure t := fun gas => by rw [h]; rfl
  simp only [hrun]
  exact Settles.pure rfl

/-- A turn that continues takes a step before the next. -/
theorem turns_continue (h : Turns aliases d s r) :
    ∀ k, Settles aliases d (fun gas => afterTurn gas (gas - (k + 1)) (.Continue s)) (· = r) :=
  fun k => Settles.after_step (h (k + 1))

/-- Where a variable leads. -/
def aliasFlow (aliases : Nat → Option Term) (name : String) (id : Nat) : Flow :=
  match aliases id with
  | some replacement => .Continue replacement
  | none => .Break (.Var name id)

theorem settles_alias (name : String) (id : Nat) :
    Settles aliases d (fun gas => whnfTurn (whnf gas) gas (.Var name id))
      (· = aliasFlow aliases name id) := by
  have hrun : ∀ (gas : Nat) (e : Engine) (flow : Flow) (e' : Engine),
      Returns (whnfTurn (whnf gas) gas (.Var name id)) e flow e' ↔
        aliasFlow e.aliases name id = flow ∧ e = e' := by
    intro gas e flow e'
    simp only [whnfTurn, returns_bind, returns_get, aliasFlow]
    constructor
    · rintro ⟨_, _, ⟨rfl, rfl⟩, hret⟩
      cases ha : e.aliases id <;> rw [ha] at hret <;> exact returns_pure.mp hret
    · rintro ⟨rfl, rfl⟩
      refine ⟨e, e, ⟨rfl, rfl⟩, ?_⟩
      cases e.aliases id <;> exact returns_pure.mpr ⟨rfl, rfl⟩
  refine ⟨0, fun gas e he => ⟨fun flow e' hret => ?_, fun _ _ _ => ?_⟩⟩
  · obtain ⟨rfl, rfl⟩ := (hrun gas e flow e').mp hret
    exact ⟨by rw [he], he, rfl⟩
  · exact ⟨_, e, (hrun gas e _ e).mpr ⟨rfl, rfl⟩, by omega⟩

theorem turns_var {name : String} {id : Nat} (h : aliases id = none) :
    Turns aliases d (.Var name id) (.Var name id) := by
  refine turns_of_turn fun k => ?_
  have hturn : Settles aliases d _ _ := settles_alias name id
  rw [aliasFlow, h] at hturn
  exact hturn.bind_eq (Settles.pure rfl)

/-- The rest of a turn on a meet, after its left side. -/
def minTurn (whnf : Term → M Term) (b : Term) : Term → M Flow
  | .Qua .None => return .Break (.Qua .None)
  | .Qua .Many => return .Continue b
  | a => do return .Break (minOf a (← whnf b))

theorem whnfTurn_min (whnf : Term → M Term) (gas : Nat) (a b : Term) :
    whnfTurn whnf gas (.Min a b) = whnf a >>= fun a => minTurn whnf b a := by
  rw [whnfTurn]
  congr 1

/-- It is enough to follow a meet from the normal form of its left side. -/
theorem turns_min {ra : Term} (ha : Settles aliases d (fun gas => whnf gas a) (· = ra))
    (hrest : ∀ k, Settles aliases d
      (fun gas => minTurn (whnf gas) b ra >>= afterTurn gas (gas - (k + 1))) (· = r)) :
    Turns aliases d (.Min a b) r := by
  refine turns_of_turn fun k => ?_
  simp only [whnfTurn_min, bind_assoc]
  exact ha.bind_eq (G := fun ra gas => minTurn (whnf gas) b ra >>= afterTurn gas (gas - (k + 1)))
    (hrest k)

/-- A left side that decides nothing alone. -/
theorem turns_minOf {ra rb : Term} (ha : Settles aliases d (fun gas => whnf gas a) (· = ra))
    (hb : Settles aliases d (fun gas => whnf gas b) (· = rb))
    (hundecided : ∀ whnf : Term → M Term,
      minTurn whnf b ra = whnf b >>= fun b => return .Break (minOf ra b)) :
    Turns aliases d (.Min a b) (minOf ra rb) := by
  refine turns_min ha fun k => ?_
  simp only [hundecided, bind_assoc, pure_bind]
  exact hb.bind_eq (G := fun b _ => Pure.pure (minOf ra b)) (Settles.pure rfl)

/-- **A quantity has a weak head normal form**, which stands for the same ranks. -/
theorem spells_turns (h : Spells aliases t x) :
    ∃ r, Stands aliases r x ∧ Turns aliases x.height t r := by
  induction h with
  | none => exact ⟨_, Normal.none.stands, turns_done fun _ => rfl⟩
  | lone => exact ⟨_, Normal.lone.stands, turns_done fun _ => rfl⟩
  | many => exact ⟨_, Normal.many.stands, turns_done fun _ => rfl⟩
  | var h => exact ⟨_, (Normal.var h).stands, turns_var h⟩
  | @aliased name id t x h ht ih =>
    obtain ⟨r, hr, hturns⟩ := ih
    refine ⟨r, hr, turns_of_turn fun k => ?_⟩
    have hturn : Settles aliases x.height _ _ := settles_alias name id
    rw [aliasFlow, h] at hturn
    exact hturn.bind_eq (turns_continue hturns k)
  | @min a b x y ha hb iha ihb =>
    obtain ⟨ra, hra, hta⟩ := iha
    obtain ⟨rb, hrb, htb⟩ := ihb
    have hd : (Expr.meet x y).height = max x.height y.height + 1 := rfl
    have hwa : Settles aliases (Expr.meet x y).height (fun gas => whnf gas a) (· = ra) :=
      (settles_whnf hta).mono (by omega)
    have hwb : Settles aliases (Expr.meet x y).height (fun gas => whnf gas b) (· = rb) :=
      (settles_whnf htb).mono (by omega)
    have hrank : ∀ ρ, (Expr.meet x y).rank ρ = min (x.rank ρ) (y.rank ρ) := fun ρ => rfl
    have hstands := stands_minOf hra hrb
    obtain ⟨xa, hxa, -, hxr⟩ := hra
    cases hxa with
    | none =>
      refine ⟨.Qua .None, ⟨.low, .none, Nat.zero_le _, fun ρ => ?_⟩,
        turns_min hwa fun k => Settles.pure rfl⟩
      rw [hrank, ← hxr]
      exact (min_eq_left (Bool.false_le _)).symm
    | many =>
      refine ⟨rb, ?_, turns_min hwa fun k => (turns_continue htb k).mono (by omega)⟩
      obtain ⟨yb, hyb, hyh, hyr⟩ := hrb
      refine ⟨yb, hyb, by omega, fun ρ => ?_⟩
      rw [hrank, ← hxr, hyr]
      exact (min_eq_right (Bool.le_true _)).symm
    | lone => exact ⟨_, hstands, turns_minOf hwa hwb fun _ => rfl⟩
    | var h => exact ⟨_, hstands, turns_minOf hwa hwb fun _ => rfl⟩
    | min h h' => exact ⟨_, hstands, turns_minOf hwa hwb fun _ => rfl⟩

/-! ## 4. The comparison of kinds -/

/-- A run that decides a proposition. -/
def Decides (aliases : Nat → Option Term) (d : Nat) (f : Nat → M Bool) (P : Prop) : Prop :=
  Settles aliases d f fun answer => answer = true ↔ P

variable {f f' : Nat → M Bool} {P P' : Prop}

theorem Decides.congr (hf : Decides aliases d f P) (h : P ↔ P') : Decides aliases d f P' :=
  hf.imp fun _ ha => ha.trans h

theorem decides_true (h : P) : Decides aliases d (fun _ => return true) P :=
  Settles.pure (by simp [h])

theorem decides_false (h : ¬P) : Decides aliases d (fun _ => return false) P :=
  Settles.pure (by simp [h])

theorem Decides.both (hf : Decides aliases d f P) (hf' : Decides aliases d f' P') :
    Decides aliases d (fun gas => Kernel.both (f gas) (f' gas)) (P ∧ P') := by
  refine Settles.bind_bool hf fun answer hanswer => ?_
  cases answer with
  | true => exact hf'.congr (by simp [hanswer.mp rfl])
  | false => exact decides_false fun h => by simpa using hanswer.mpr h.1

theorem Decides.either (hf : Decides aliases d f P) (hf' : Decides aliases d f' P') :
    Decides aliases d (fun gas => do if ← f gas then return true else f' gas) (P ∨ P') := by
  refine Settles.bind_bool hf fun answer hanswer => ?_
  cases answer with
  | true => exact decides_true (Or.inl (hanswer.mp rfl))
  | false =>
    have hno : ¬P := fun h => by simpa using hanswer.mpr h
    exact hf'.congr (by simp [hno])

/-- Two terms that are no functions are compared by their heads, unless they are one pointer. -/
theorem decides_compare {mode : Comparison} (ha : Settles aliases d (fun gas => whnf gas s) (· = a))
    (hb : Settles aliases d (fun gas => whnf gas t) (· = b)) (hla : isLam a = false)
    (hlb : isLam b = false) (hst : s = t → P) (hab : a = b → P)
    (hheads : Decides aliases d (fun gas => compareHeads (whnf gas) (compare gas) mode a b) P) :
    Decides aliases (d + 1) (fun gas => compare gas mode s t) P := by
  refine Settles.charged (f := fun gas => compareInner (whnf gas) (compare gas) mode s t) ?_ rfl
    fun _ => rfl
  refine Settles.bind_bool Settles.ptrEq fun same hsame => ?_
  cases same with
  | true => exact decides_true (hst (hsame rfl))
  | false =>
    refine ha.bind_eq (hb.bind_eq ?_)
    refine Settles.bind_bool Settles.ptrEq fun same hsame => ?_
    cases same with
    | true => exact decides_true (hab (hsame rfl))
    | false =>
      rw [hla, hlb]
      exact hheads

/-- The match of `fitsKind` on two normal forms. -/
def fitsHeads (compare : Comparison → Term → Term → M Bool) (a b : Term) : Term → Term → M Bool
  | .Qua .Many, _ => return true
  | _, .Qua .None => return true
  | _, .Qua .Lone => return true
  | .Min x y, _ => both (compare .Fits (.Typ x) b) (compare .Fits (.Typ y) b)
  | _, .Min x y => do
    if ← compare .Fits a (.Typ x) then return true else compare .Fits a (.Typ y)
  | g, h => compare .Fits g h

theorem decides_fitsKind {rg rh : Term} (hg : Settles aliases d (fun gas => whnf gas g) (· = rg))
    (hh : Settles aliases d (fun gas => whnf gas h) (· = rh))
    (hheads : Decides aliases d (fun gas => fitsHeads (compare gas) a b rg rh) P) :
    Decides aliases d (fun gas => fitsKind (whnf gas) (compare gas) a b g h) P :=
  hg.bind_eq (hh.bind_eq hheads)

theorem settles_typ (g : Term) : Settles aliases (d + 1) (fun gas => whnf gas (.Typ g))
    (· = .Typ g) :=
  settles_whnf (turns_done fun _ => rfl)

/-- Two quantities that `whnf` leaves alone. -/
theorem decides_atoms (ha : Turns aliases 0 a a) (hb : Turns aliases 0 b b) (hla : isLam a = false)
    (hlb : isLam b = false) (hab : a = b → P) (answer : Bool) (hanswer : answer = true ↔ P)
    (hheads : ∀ whnf compare, compareHeads whnf compare .Fits a b = return answer) :
    Decides aliases 2 (fun gas => compare gas .Fits a b) P := by
  refine decides_compare (settles_whnf ha) (settles_whnf hb) hla hlb hab hab ?_
  simp only [hheads]
  exact Settles.pure hanswer

/-- The comparison of two kinds, with as many levels as their meets nest. -/
theorem decides_kinds (n : Nat) {g h : Term} {x y : Expr Nat} (hg : Spells aliases g x)
    (hh : Spells aliases h y) (hn : x.height + y.height ≤ n) :
    Decides aliases (n + 3) (fun gas => compare gas .Fits (.Typ g) (.Typ h)) (y.Below x) := by
  induction n using Nat.strong_induction_on generalizing g h x y with
  | _ n ih =>
    have hsame : Term.Typ g = Term.Typ h → y.Below x := by
      intro he
      cases he
      rw [hg.unique hh]
      exact .refl y
    obtain ⟨rg, ⟨x', hx', hxh, hxr⟩, hrg⟩ := spells_turns hg
    obtain ⟨rh, ⟨y', hy', hyh, hyr⟩, hrh⟩ := spells_turns hh
    refine decides_compare (settles_typ g) (settles_typ h) rfl rfl hsame hsame ?_
    refine decides_fitsKind ((settles_whnf hrg).mono (by omega))
      ((settles_whnf hrh).mono (by omega)) ?_
    refine Decides.congr ?_ (Expr.below_congr hyr hxr)
    -- A meet on the left asks for both of its sides, each against the second kind.
    have hboth {c c' : Term} {z z' : Expr Nat} (hc : Spells aliases c z)
        (hc' : Spells aliases c' z') (hz : (Expr.meet z z').height ≤ x.height) :
        Decides aliases (n + 2) (fun gas => both (compare gas .Fits (.Typ c) (.Typ h))
          (compare gas .Fits (.Typ c') (.Typ h))) (y'.Below (.meet z z')) := by
      have hlt : max z.height z'.height + 1 ≤ x.height := hz
      have hleft := ih (z.height + y.height) (by omega) hc hh (Nat.le_refl _)
      have hright := ih (z'.height + y.height) (by omega) hc' hh (Nat.le_refl _)
      refine Decides.congr (.both (hleft.mono (by omega)) (hright.mono (by omega))) ?_
      rw [Expr.below_meet_iff, Expr.below_congr hyr fun _ => rfl,
        Expr.below_congr hyr fun _ => rfl]
    -- A meet on the right asks for one of its sides, when the first quantity is no meet.
    have heither {c c' : Term} {z z' : Expr Nat} {ρ : Nat → Bool} (hc : Spells aliases c z)
        (hc' : Spells aliases c' z') (hz : (Expr.meet z z').height ≤ y.height)
        (hworst : Expr.Worst ρ x') :
        Decides aliases (n + 2) (fun gas => do
          if ← compare gas .Fits (.Typ g) (.Typ c) then return true
          else compare gas .Fits (.Typ g) (.Typ c')) (Expr.Below (.meet z z') x') := by
      have hlt : max z.height z'.height + 1 ≤ y.height := hz
      have hleft := ih (x.height + z.height) (by omega) hg hc (Nat.le_refl _)
      have hright := ih (x.height + z'.height) (by omega) hg hc' (Nat.le_refl _)
      refine Decides.congr (.either (hleft.mono (by omega)) (hright.mono (by omega))) ?_
      rw [Expr.meet_below_iff hworst, Expr.below_congr (fun _ => rfl) hxr,
        Expr.below_congr (fun _ => rfl) hxr]
    cases hx' with
    | many => exact decides_true (Expr.below_top y')
    | none =>
      cases hy' with
      | none => exact decides_true (Expr.low_below _)
      | lone => exact decides_true (Expr.low_below _)
      | many =>
        exact (decides_atoms (turns_done fun _ => rfl) (turns_done fun _ => rfl) rfl rfl nofun false
          (by simp [Expr.not_top_below Expr.worst_low]) fun _ _ => rfl).mono (by omega)
      | var hv =>
        exact (decides_atoms (turns_done fun _ => rfl) (turns_var hv) rfl rfl nofun false
          (by simp [Expr.not_var_below_low]) fun _ _ => rfl).mono (by omega)
      | min hc hc' => exact heither hc hc' hyh Expr.worst_low
    | lone =>
      cases hy' with
      | none => exact decides_true (Expr.low_below _)
      | lone => exact decides_true (Expr.low_below _)
      | many =>
        exact (decides_atoms (turns_done fun _ => rfl) (turns_done fun _ => rfl) rfl rfl nofun false
          (by simp [Expr.not_top_below Expr.worst_low]) fun _ _ => rfl).mono (by omega)
      | var hv =>
        exact (decides_atoms (turns_done fun _ => rfl) (turns_var hv) rfl rfl nofun false
          (by simp [Expr.not_var_below_low]) fun _ _ => rfl).mono (by omega)
      | min hc hc' => exact heither hc hc' hyh Expr.worst_low
    | @var name u hu =>
      cases hy' with
      | none => exact decides_true (Expr.low_below _)
      | lone => exact decides_true (Expr.low_below _)
      | many =>
        exact (decides_atoms (turns_var hu) (turns_done fun _ => rfl) rfl rfl nofun false
          (by simp [Expr.not_top_below (Expr.worst_var u)]) fun _ _ => rfl).mono (by omega)
      | @var name' v hv =>
        refine (decides_atoms (turns_var hu) (turns_var hv) rfl rfl ?_ (decide (u = v)) ?_
          fun _ _ => rfl).mono (by omega)
        · rintro ⟨⟩
          exact .refl _
        · rw [Expr.var_below_var_iff, decide_eq_true_iff, eq_comm]
      | min hc hc' => exact heither hc hc' hyh (Expr.worst_var u)
    | min hc hc' =>
      cases hy' with
      | none => exact decides_true (Expr.low_below _)
      | lone => exact decides_true (Expr.low_below _)
      | many => exact hboth hc hc' hxh
      | var hv => exact hboth hc hc' hxh
      | min _ _ => exact hboth hc hc' hxh

/-- **The order of kinds is decided exactly.**  Between the kinds of two quantities, `compare`
answers whether the second quantity is at most the first under every assignment of the two ranks
to the variables: whatever it returns is that answer, and it returns when the levels that are left
exceed the nesting of the meets by three and the fuel and the bound are large enough. -/
theorem compare_kinds {g h : Term} {x y : Expr Nat} (hg : Spells aliases g x)
    (hh : Spells aliases h y) :
    ∃ fuel, ∀ (gas : Nat) (e : Engine), e.aliases = aliases →
      (∀ answer e', Returns (compare gas .Fits (.Typ g) (.Typ h)) e answer e' →
        (answer = true ↔ ∀ ρ : Nat → Bool, y.rank ρ ≤ x.rank ρ)) ∧
      (fuel ≤ gas → fuel ≤ e.fuel → e.depth + (x.height + y.height + 3) ≤ 128 →
        ∃ answer e', Returns (compare gas .Fits (.Typ g) (.Typ h)) e answer e') := by
  obtain ⟨fuel, hfuel⟩ := decides_kinds (x.height + y.height) hg hh (Nat.le_refl _)
  refine ⟨fuel, fun gas e he => ⟨fun answer e' hret => ?_, fun hgas hleft hdepth => ?_⟩⟩
  · exact ((hfuel gas e he).1 answer e' hret).1
  · obtain ⟨answer, e', hret, -⟩ := (hfuel gas e he).2 hgas hleft hdepth
    exact ⟨answer, e', hret⟩

/-- `Min(&2, q)` against `Min(q, p)`, at depth zero. -/
theorem compare_kinds_meet :
    Spells (fun _ => none) (.Min (.Qua .Many) (.Var "q" 0)) (.meet .top (.var 0)) ∧
    Spells (fun _ => none) (.Min (.Var "q" 0) (.Var "p" 1)) (.meet (.var 0) (.var 1)) ∧
    ∃ fuel, ∀ (gas : Nat) (e : Engine), e.aliases = (fun _ => none) →
      (∀ answer e', Returns (compare gas .Fits (.Typ (.Min (.Qua .Many) (.Var "q" 0)))
          (.Typ (.Min (.Var "q" 0) (.Var "p" 1)))) e answer e' →
        (answer = true ↔ ∀ ρ : Nat → Bool, (Expr.meet (.var 0) (.var 1)).rank ρ ≤
          (Expr.meet .top (.var 0)).rank ρ)) ∧
      (fuel ≤ gas → fuel ≤ e.fuel → e.depth + (1 + 1 + 3) ≤ 128 →
        ∃ answer e', Returns (compare gas .Fits (.Typ (.Min (.Qua .Many) (.Var "q" 0)))
          (.Typ (.Min (.Var "q" 0) (.Var "p" 1)))) e answer e') :=
  ⟨.min .many (.var rfl), .min (.var rfl) (.var rfl),
    compare_kinds (.min .many (.var rfl)) (.min (.var rfl) (.var rfl))⟩

end TeamyBend.Kernel
