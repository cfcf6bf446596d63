/-
# Compact naturals mean what the Base computes

The operations on compact naturals, one after the other: lazy addition and doubling denote the sum
and the double of their operands without demanding what follows a prefix, the other operations
give on known operands what the bodies of the Base give, and a number past 48 bits is reported as
an overflow.  An operand of any other form sends a call into the checked body with the arguments
it had.
-/
import TeamyBend.Runtime.NaturalMeanings

namespace TeamyBend.Runtime.Evaluator

open Library (LazyNat Ends)
open Kernel (Term)
open Base (natAdd natDouble)

variable {setting : Setting} {m m' m₁ m₂ : Machine} {P : KernelError → Prop}

/-! ## 1. Calls of the operations -/

theorem PureOptimization.name_ne (optimization : PureOptimization) (operation : NatOperation) :
    optimization.name ≠ operation.name := by
  cases optimization <;> cases operation <;> decide

theorem NatOperation.name_injective {a b : NatOperation} (h : a.name = b.name) : a = b := by
  revert h
  cases a <;> cases b <;> decide

/-- A reference to a sealed operation is the operation itself. -/
theorem resolve_operation (hsealed : setting.program.Sealed) {operation : NatOperation}
    (hmem : operation ∈ setting.program.natOptimizations) :
    resolve setting operation.name = allocate setting (.Ready (.Natural operation [])) := by
  have hoptimizations : setting.program.optimizations.find? (·.name = operation.name) = none :=
    List.find?_eq_none.2 fun optimization _ => by
      simpa using PureOptimization.name_ne optimization operation
  have hnatural :
      setting.program.natOptimizations.find? (·.name = operation.name) = some operation := by
    obtain ⟨found, hfound⟩ := Option.isSome_iff_exists.1
      (List.find?_isSome.2 ⟨operation, hmem, by simp⟩ :
        (setting.program.natOptimizations.find? (·.name = operation.name)).isSome)
    have hname : found.name = operation.name := by simpa using List.find?_some hfound
    rw [hfound, NatOperation.name_injective hname]
  unfold resolve
  simp only [hsealed.apart operation, hoptimizations, hnatural]

/-- The reference to an operation ends in its global. -/
theorem ends_reference (hsound : m.Sound) (hsealed : setting.program.Sealed)
    {operation : NatOperation} (hmem : operation ∈ setting.program.natOptimizations) :
    Ends (budget setting) 1 (reference setting operation.name) m
      (fun id m' => m.Extends m' ∧ m'.global operation.name = some id) P := by
  unfold reference
  refine Ends.read ?_
  cases hglobal : m.global operation.name with
  | some id => exact (Ends.pure ⟨.refl hsound, hglobal⟩).more (Nat.zero_le _)
  | none =>
    show Ends _ _ (resolve setting operation.name >>= _) _ _ _
    rw [resolve_operation hsealed hmem]
    refine Ends.bind (k := 1) (j := 0) (ends_allocate hsound trivial) fun id m₁ h₁ => ?_
    refine Ends.bind (k := 0) (j := 0)
      (R := fun _ m₂ => m.Extends m₂ ∧ m₂.global operation.name = some id) ?_
      fun _ _ h₂ => Ends.pure h₂
    refine Ends.ok rfl ⟨⟨h₁.1.thunks, fun name j hj => ?_, ⟨h₁.1.sound.nodup, h₁.1.sound.vacant,
      h₁.1.sound.counted⟩⟩, ?_⟩ fun j hj => by
        rw [Nat.zero_add] at hj
        exact hj
    · have hne : name ≠ operation.name := by
        rintro rfl
        rw [hglobal] at hj
        cases hj
      show ((operation.name, id) :: m₁.globals).lookup name = some j
      rw [List.lookup_cons, beq_false_of_ne hne]
      exact h₁.1.globals name j hj
    · show ((operation.name, id) :: m₁.globals).lookup operation.name = some id
      rw [List.lookup_cons, beq_self_eq_true]

/-- The thunk is a call of an operation through its global name. -/
def CallsGlobal (m : Machine) (operation : NatOperation) (arguments : List ThunkId)
    (id : ThunkId) : Prop :=
  ∃ function, m.global operation.name = some function ∧ Applies m function arguments id

theorem Reads.callsGlobal {ρ : Meaning} (hρ : Reads setting m ρ) {operation : NatOperation}
    {arguments : List ThunkId} {id : ThunkId} (h : CallsGlobal m operation arguments id) :
    ρ.calls id operation arguments := by
  obtain ⟨function, hglobal, happlies⟩ := h
  exact hρ.applies happlies (hρ.global _ _ hglobal)

theorem ends_deferredNat (hsound : m.Sound) (hsealed : setting.program.Sealed)
    {operation : NatOperation} (hmem : operation ∈ setting.program.natOptimizations)
    (arguments : List ThunkId) :
    Ends (budget setting) (1 + arguments.length) (deferredNat setting operation arguments) m
      (fun id m' => m.Extends m' ∧ CallsGlobal m' operation arguments id) P := by
  refine (ends_reference hsound hsealed hmem).bind fun function m₁ h₁ => ?_
  refine (ends_applications h₁.1.sound function arguments).imp fun id m₂ h₂ => ?_
  exact ⟨h₁.1.trans h₂.1, function, h₂.1.globals _ _ h₁.2, h₂.2⟩

/-- Suspending a function allocates its expression. -/
theorem expression_function {body : Term} (hbody : IsFunction body) (scope : EnvId) :
    expression setting body scope = allocate setting (.Expression body scope) := by
  unfold expression suspend availableNumeric
  cases body with
  | Lam name id body => cases setting.program.packed <;> rfl
  | Mat constructor arm fallback => cases setting.program.packed <;> rfl
  | _ => exact hbody.elim

/-- An ordinary call of an operation is built within its budget. -/
theorem ends_ordinaryNat (hsound : m.Sound) (hsealed : setting.program.Sealed)
    {operation : NatOperation} (hmem : operation ∈ setting.program.natOptimizations)
    (arguments : List ThunkId) :
    Ends (budget setting) (1 + arguments.length) (ordinaryNat setting operation arguments) m
      (fun id m' => m.Extends m' ∧ EntersBody setting m' operation arguments id) P := by
  obtain ⟨body, hbody, hfunction⟩ := hsealed.body operation hmem
  unfold ordinaryNat
  have hlookup : (setting.program.definitions.lookup operation.name).bind (·.body) = some body :=
    hbody
  rw [hlookup]
  have hexpression : Ends (budget setting) 1 (expression setting body 0) m
      (Holds m (.Expression body 0)) P := by
    rw [expression_function hfunction]
    exact ends_allocate hsound trivial
  refine hexpression.bind fun function m₁ h₁ => ?_
  refine (ends_applications h₁.1.sound function arguments).imp fun id m₂ h₂ => ?_
  exact ⟨h₁.1.trans h₂.1, function, body, hbody, h₂.1.thunks _ _ h₁.2, h₂.2⟩

/-! ## 2. Addition and doubling -/

/-- How a value splits into successors and what follows them. -/
inductive Splits : Value → Option (Nat × Option ThunkId) → Prop where
  | immediate {count : Nat} (h : count ≤ natMax) : Splits (.PackedNat count) (some (count, none))
  | counted {count : Nat} {tail : ThunkId} (h : count ≤ natMax) :
      Splits (.NatPrefix count tail) (some (count, some tail))
  | neither (value : Value) : Splits value none

/-- A counted value splits into its prefix and its rest. -/
theorem ends_prefixParts {value : Value} (hcounted : value.Counted) :
    Ends (budget setting) 0 (prefixParts value) m
      (fun parts m' => m' = m ∧ Splits value parts) P := by
  cases value with
  | PackedNat count =>
    refine Ends.pure ⟨rfl, ?_⟩
    have hcount : count ≤ natMax := hcounted
    rw [if_pos hcount]
    exact .immediate hcount
  | NatPrefix count tail =>
    refine Ends.bind (k := 0) (j := 0) (ends_prefixCount hcounted (Q := fun c m₁ =>
      c = count ∧ m₁ = m) ⟨rfl, rfl⟩) fun c m₁ h₁ => ?_
    obtain ⟨rfl, rfl⟩ := h₁
    exact Ends.pure ⟨rfl, .counted hcounted.2⟩
  | _ => exact Ends.pure ⟨rfl, .neither _⟩

/-- **Lazy addition means `Nat.add`.**  Whatever the first operand turned out to be, the call gives
a thunk that denotes the sum in every reading of the arena, and every thunk stays as it was. -/
theorem ends_add (hsound : m.Sound) (hsealed : setting.program.Sealed)
    (hmem : .Add ∈ setting.program.natOptimizations) {left right : ThunkId} {value : Value}
    (hleft : Evaluated m left value) {state : Evaluation} (hoperation : state.operation = .Add)
    (harguments : state.arguments = [left, right]) :
    Ends (budget setting) 5 (prefixArithmetic setting state value) m (fun id m' => m.Extends m' ∧
      ∀ ρ, Reads setting m' ρ → ρ.natural id = natAdd (ρ.natural left) (ρ.natural right)) P := by
  unfold prefixArithmetic
  rw [hoperation, harguments]
  refine Ends.bind (k := 0) (j := 5) (ends_prefixParts (hleft.counted hsound)) fun parts m₁ h₁ => ?_
  obtain ⟨rfl, hsplits⟩ := h₁
  cases hsplits with
  | @immediate count hcount =>
    refine ((ends_natPrefix hsound hsealed.packed (by omega) right).imp fun id m₂ h₂ => ?_).more
      (by decide)
    refine ⟨h₂.1, fun ρ hρ => ?_⟩
    have hcompact : ρ.natural left = (LazyNat.whole 0).after count := by
      rw [hρ.evaluated (hleft.extends h₂.1) rfl, LazyNat.after_whole, Nat.add_zero]
    rw [h₂.2 ρ hρ, hcompact, Base.natAdd_after, Base.natAdd_zero]
  | @counted count tail hcount =>
    refine Ends.bind (k := 3) (j := 2) (ends_deferredNat hsound hsealed hmem [tail, right])
      fun rest m₂ h₂ => ?_
    refine (ends_natPrefix h₂.1.sound hsealed.packed (by omega) rest).imp fun id m₃ h₃ => ?_
    refine ⟨h₂.1.trans h₃.1, fun ρ hρ => ?_⟩
    obtain ⟨function, hglobal, happlies⟩ := h₂.2
    have hrest := hρ.added _ _ _
      (hρ.callsGlobal ⟨function, h₃.1.globals _ _ hglobal, happlies.extends h₃.1⟩)
    have hcompact : ρ.natural left = (ρ.natural tail).after count :=
      hρ.evaluated (hleft.extends (h₂.1.trans h₃.1)) rfl
    rw [h₃.2 ρ hρ, hrest, hcompact, Base.natAdd_after]
  | neither value =>
    refine ((ends_ordinaryNat hsound hsealed hmem [left, right]).imp fun id m₂ h₂ => ?_).more
      (show 1 + 2 ≤ 5 by decide)
    exact ⟨h₂.1, fun ρ hρ => hρ.added _ _ _ (hρ.entersBody h₂.2)⟩

/-- **Lazy doubling means `Nat.double`.** -/
theorem ends_double (hsound : m.Sound) (hsealed : setting.program.Sealed)
    (hmem : .Double ∈ setting.program.natOptimizations) {n : ThunkId} {value : Value}
    (hn : Evaluated m n value) {state : Evaluation} (hoperation : state.operation = .Double)
    (harguments : state.arguments = [n]) :
    Ends (budget setting) 5 (prefixArithmetic setting state value) m (fun id m' => m.Extends m' ∧
      ∀ ρ, Reads setting m' ρ → ρ.natural id = natDouble (ρ.natural n)) P := by
  unfold prefixArithmetic
  rw [hoperation, harguments]
  refine Ends.bind (k := 0) (j := 5) (ends_prefixParts (hn.counted hsound)) fun parts m₁ h₁ => ?_
  obtain ⟨rfl, hsplits⟩ := h₁
  cases hsplits with
  | @immediate count hcount =>
    refine (Ends.bind (k := 1) (j := 2) (ends_nat hsound hsealed.packed (Nat.zero_le _))
      fun tail m₂ h₂ => ?_).more (by decide)
    refine (ends_natPrefix h₂.1.sound hsealed.packed (by omega) tail).imp fun id m₃ h₃ => ?_
    refine ⟨h₂.1.trans h₃.1, fun ρ hρ => ?_⟩
    have hzero : ρ.natural tail = .whole 0 := hρ.value _ _ _ (h₃.1.thunks _ _ h₂.2) rfl
    have hcompact : ρ.natural n = (LazyNat.whole 0).after count := by
      rw [hρ.evaluated (hn.extends (h₂.1.trans h₃.1)) rfl, LazyNat.after_whole, Nat.add_zero]
    rw [h₃.2 ρ hρ, hzero, hcompact, Base.natDouble_after, Base.natDouble_zero]
  | @counted count tail hcount =>
    refine (Ends.bind (k := 2) (j := 2) (ends_deferredNat hsound hsealed hmem [tail])
      fun rest m₂ h₂ => ?_).more (by decide)
    refine (ends_natPrefix h₂.1.sound hsealed.packed (by omega) rest).imp fun id m₃ h₃ => ?_
    refine ⟨h₂.1.trans h₃.1, fun ρ hρ => ?_⟩
    obtain ⟨function, hglobal, happlies⟩ := h₂.2
    have hrest := hρ.doubled _ _
      (hρ.callsGlobal ⟨function, h₃.1.globals _ _ hglobal, happlies.extends h₃.1⟩)
    have hcompact : ρ.natural n = (ρ.natural tail).after count :=
      hρ.evaluated (hn.extends (h₂.1.trans h₃.1)) rfl
    rw [h₃.2 ρ hρ, hrest, hcompact, Base.natDouble_after]
  | neither value =>
    refine ((ends_ordinaryNat hsound hsealed hmem [n]).imp fun id m₂ h₂ => ?_).more
      (show 1 + 1 ≤ 5 by decide)
    exact ⟨h₂.1, fun ρ hρ => hρ.doubled _ _ (hρ.entersBody h₂.2)⟩

/-! ## 3. Calls on known operands -/

/-- A thunk whose natural is completely known. -/
inductive Known (m : Machine) : ThunkId → Nat → Prop where
  | immediate {id : ThunkId} {n : Nat} (h : Evaluated m id (.PackedNat n)) : Known m id n
  | counted {id tail : ThunkId} {count n : Nat} (h : Evaluated m id (.NatPrefix count tail))
      (htail : Known m tail n) : Known m id (count + n)
  | zero {id : ThunkId} (h : Evaluated m id (.Constructor "Zero" [])) : Known m id 0
  | succ {id pred : ThunkId} {n : Nat} (h : Evaluated m id (.Constructor "Succ" [pred]))
      (hpred : Known m pred n) : Known m id (1 + n)

/-- A known natural denotes its number. -/
theorem Reads.known {ρ : Meaning} (hρ : Reads setting m ρ) {id : ThunkId} {n : Nat}
    (h : Known m id n) : ρ.natural id = .whole n := by
  induction h with
  | immediate h => exact hρ.evaluated h rfl
  | counted h _ ih => rw [hρ.evaluated h rfl, ih, LazyNat.after_whole]
  | zero h => exact hρ.evaluated h rfl
  | succ h _ ih =>
    rw [hρ.evaluated h rfl, ih, LazyNat.succ]
    congr 1
    omega

/-- How a call goes on while the operands it demands are evaluated: the evaluator hands each of
them to `nat_step`, until the call leaves the continuation. -/
inductive Runs (setting : Setting) (frames : List Frame) :
    Machine → Evaluation → ThunkId → EStateM.Result KernelError Machine ThunkId → Prop where
  | done {m m' : Machine} {state : Evaluation} {next id : ThunkId} {value : Value}
      (hvalue : Evaluated m next value)
      (hstep : natStep setting state value frames m = .ok (id, frames) m') :
      Runs setting frames m state next (.ok id m')
  | fails {m m' : Machine} {state : Evaluation} {next : ThunkId} {value : Value}
      {err : KernelError} (hvalue : Evaluated m next value)
      (hstep : natStep setting state value frames m = .error err m') :
      Runs setting frames m state next (.error err m')
  | more {m m₁ : Machine} {state state₁ : Evaluation} {next next₁ : ThunkId} {value : Value}
      {r : EStateM.Result KernelError Machine ThunkId} (hvalue : Evaluated m next value)
      (hstep : natStep setting state value frames m = .ok (next₁, .Natural state₁ :: frames) m₁)
      (hrest : Runs setting frames m₁ state₁ next₁ r) : Runs setting frames m state next r

/-- The call runs to a result with `Q` or to an error with `P`. -/
def Settles (setting : Setting) (frames : List Frame) (m : Machine) (state : Evaluation)
    (next : ThunkId) (Q : ThunkId → Machine → Prop) (P : KernelError → Prop) : Prop :=
  ∃ r, Runs setting frames m state next r ∧ match r with
    | .ok id m' => Q id m'
    | .error err _ => P err

/-- An overflow of the 48-bit bound. -/
def Overflows (err : KernelError) : Prop := err.kind = .NatOverflow

variable {frames : List Frame} {state : Evaluation}

/-- A last step that the budget affords. -/
theorem Settles.of_ends {k : Nat} {next : ThunkId} {value : Value} {Q : ThunkId → Machine → Prop}
    (hvalue : Evaluated m next value)
    (hstep : Ends (budget setting) k (natStep setting state value frames) m
      (fun r m' => r.2 = frames ∧ Q r.1 m') P)
    (hafford : (budget setting).affords m k) : Settles setting frames m state next Q P := by
  rcases hstep.result hafford with ⟨⟨id, rest⟩, m', hrun, hrest, hQ⟩ | ⟨err, m', hrun, hP⟩
  · cases hrest
    exact ⟨_, .done hvalue hrun, hQ⟩
  · exact ⟨_, .fails hvalue hrun, hP⟩

theorem Settles.more {m₁ : Machine} {state₁ : Evaluation} {next next₁ : ThunkId} {value : Value}
    {Q : ThunkId → Machine → Prop} (hvalue : Evaluated m next value)
    (hstep : natStep setting state value frames m = .ok (next₁, .Natural state₁ :: frames) m₁)
    (h : Settles setting frames m₁ state₁ next₁ Q P) : Settles setting frames m state next Q P := by
  obtain ⟨r, hr, hspec⟩ := h
  exact ⟨r, .more hvalue hstep hr, hspec⟩

/-- The operations that demand all their operands: all of them in strict mode, and in lazy mode
all but addition and doubling. -/
def Demands (setting : Setting) (operation : NatOperation) : Prop :=
  operation ≠ .ArrayNew ∧
    (setting.program.strict = false → operation ≠ .Add ∧ operation ≠ .Double)

theorem natStep_demands (h : Demands setting state.operation) (value : Value) :
    natStep setting state value frames = strictNatStep setting state value frames := by
  unfold natStep
  rw [if_neg h.1, if_neg]
  rintro ⟨hstrict, hlazy⟩
  have hne := h.2 (by simpa using hstrict)
  exact hlazy.elim hne.1 hne.2

theorem demandNatural_run (hframes : frames.length < setting.limits.frames) (next : ThunkId) :
    demandNatural setting state next frames m = .ok (next, .Natural state :: frames) m := by
  unfold demandNatural push
  rw [if_neg (Nat.not_le.2 hframes)]
  rfl

theorem bounded_eq {value : Nat} (message : String) (h : value ≤ natMax) :
    bounded value message = pure value := by
  unfold bounded
  rw [if_pos h]

theorem bounded_overflow {value : Nat} (message : String) (h : natMax < value) :
    bounded value message = throw (.natOverflow message) := by
  unfold bounded
  rw [if_neg (Nat.not_le.2 h)]

/-- `Nat.show` and `U32.from_nat`, which read their operand to its end. -/
def Consumes (operation : NatOperation) : Prop := operation = .Show ∨ operation = .ToU32

theorem Consumes.demands {operation : NatOperation} (h : Consumes operation) :
    Demands setting operation := by
  rcases h with rfl | rfl <;> exact ⟨by decide, fun _ => ⟨by decide, by decide⟩⟩

/-- The number an operation that reads its operand to the end has reached. -/
theorem knownOperand_consumes (hop : Consumes state.operation) (hvalues : state.values = [])
    (harguments : state.arguments.length = 1) (n : Nat) :
    knownOperand setting state n frames = do
      let id ← finishNat setting { state with values := [n] } n
      return (id, frames) := by
  have hmul : state.operation ≠ .Mul := by
    rcases hop with hop | hop <;> rw [hop] <;> decide
  unfold knownOperand
  simp [hmul, hvalues, harguments]

theorem natStep_counted (hop : Consumes state.operation) {count : Nat} {next : ThunkId}
    {value : Value} (hvalue : value = .NatPrefix count next ∧ 0 < count ∧ count ≤ natMax ∨
      value = .Constructor "Succ" [next] ∧ count = 1) :
    natStep setting state value frames m = countOn setting state count next frames m := by
  have hconsumes : state.operation = .Show ∨ state.operation = .ToU32 := hop
  rw [natStep_demands hop.demands]
  unfold strictNatStep
  rcases hvalue with ⟨rfl, hcount⟩ | ⟨rfl, rfl⟩
  · simp only [hconsumes, if_true]
    unfold prefixCount
    rw [if_neg (by omega)]
    rfl
  · simp only [hconsumes, if_true, true_and]

theorem natStep_zero (hop : Consumes state.operation) :
    natStep setting state (.Constructor "Zero" []) frames =
      knownOperand setting state state.counted frames := by
  have hconsumes : state.operation = .Show ∨ state.operation = .ToU32 := hop
  rw [natStep_demands hop.demands]
  unfold strictNatStep
  simp only [hconsumes, if_true, true_and]

theorem natStep_immediate (hdemands : Demands setting state.operation)
    (hop : state.operation ≠ .FromU32) (value : Nat) :
    natStep setting state (.PackedNat value) frames =
      (bounded (value + state.counted) "native Nat exceeds the 48-bit bound" >>= fun value =>
        knownOperand setting state value frames) := by
  rw [natStep_demands hdemands]
  unfold strictNatStep
  simp only [ne_eq, hop, not_false_eq_true, if_true]

/-- One successor run more of an operation that consumes its operand. -/
theorem settles_countOn (hframes : frames.length < setting.limits.frames)
    (hop : Consumes state.operation) {count total n : Nat} {id next : ThunkId} {value : Value}
    (hvalue : Evaluated m id value)
    (hcount : value = .NatPrefix count next ∧ 0 < count ∧ count ≤ natMax ∨
      value = .Constructor "Succ" [next] ∧ count = 1)
    (htotal : total = state.counted + (count + n)) {Q : ThunkId → Machine → Prop}
    (hrest : state.counted + count ≤ natMax →
      Settles setting frames m { state with counted := state.counted + count } next
        (fun id m' => total ≤ natMax ∧ Q id m') fun err => natMax < total ∧ Overflows err) :
    Settles setting frames m state id (fun id m' => total ≤ natMax ∧ Q id m')
      fun err => natMax < total ∧ Overflows err := by
  have hstep : natStep setting state value frames m = countOn setting state count next frames m :=
    natStep_counted hop hcount
  unfold countOn at hstep
  rcases Nat.lt_or_ge natMax (state.counted + count) with hlt | hle
  · rw [bounded_overflow _ hlt] at hstep
    exact ⟨_, .fails hvalue hstep, by omega, rfl⟩
  · rw [bounded_eq _ hle, pure_bind, demandNatural_run hframes] at hstep
    exact (hrest hle).more hvalue hstep

/-- **An operation that consumes a known natural** gets its number, or overflows where the number
does not fit.  The count so far carries the induction on how the number is known. -/
theorem settles_consumes (hsound : m.Sound) (hframes : frames.length < setting.limits.frames)
    {operation : NatOperation} (hop : Consumes operation) {next : ThunkId} {n k total : Nat}
    (hknown : Known m next n) {Q : ThunkId → Machine → Prop}
    (hfinish : ∀ state' : Evaluation, state'.operation = operation → total ≤ natMax →
      Ends (budget setting) k (finishNat setting state' total) m Q fun _ => False)
    (hafford : (budget setting).affords m k) (hstate : state.operation = operation)
    (hvalues : state.values = []) (harguments : state.arguments.length = 1)
    (hcounted : state.counted ≤ natMax) (htotal : total = state.counted + n) :
    Settles setting frames m state next (fun id m' => total ≤ natMax ∧ Q id m')
      fun err => natMax < total ∧ Overflows err := by
  -- the last step, at the number that the count so far and the last operand add up to
  have hlast {state' : Evaluation} (hstate' : state'.operation = operation)
      (hvalues' : state'.values = []) (harguments' : state'.arguments.length = 1)
      (hle : total ≤ natMax) :
      Ends (budget setting) k (knownOperand setting state' total frames) m
        (fun r m' => r.2 = frames ∧ total ≤ natMax ∧ Q r.1 m')
        fun err => natMax < total ∧ Overflows err := by
    rw [knownOperand_consumes (hstate' ▸ hop) hvalues' harguments']
    exact Ends.map ((hfinish { state' with values := [total] } hstate' hle).mono
      (fun id m' hQ => ⟨rfl, hle, hQ⟩) fun _ hfalse => hfalse.elim)
  induction hknown generalizing state with
  | @immediate id n h =>
    have hconsumes : Consumes state.operation := hstate ▸ hop
    refine Settles.of_ends h ?_ hafford
    rw [natStep_immediate hconsumes.demands (by rcases hconsumes with h | h <;> rw [h] <;> decide),
      Nat.add_comm, ← htotal]
    rcases Nat.lt_or_ge natMax total with hlt | hle
    · rw [bounded_overflow _ hlt]
      exact Ends.error rfl (.inl ⟨hlt, rfl⟩)
    · rw [bounded_eq _ hle, pure_bind]
      exact hlast hstate hvalues harguments hle
  | @counted id tail count n h _ ih =>
    exact settles_countOn hframes (hstate ▸ hop) h (.inl ⟨rfl, h.counted hsound⟩) htotal
      fun hle => ih hstate hvalues harguments hle (by rw [htotal, Nat.add_assoc])
  | zero h =>
    have hconsumes : Consumes state.operation := hstate ▸ hop
    refine Settles.of_ends h ?_ hafford
    rw [natStep_zero hconsumes, ← Nat.add_zero state.counted, ← htotal]
    exact hlast hstate hvalues harguments (by omega)
  | @succ id pred n h _ ih =>
    exact settles_countOn hframes (hstate ▸ hop) h (.inr ⟨rfl, rfl⟩) htotal
      fun hle => ih hstate hvalues harguments hle (by rw [htotal, Nat.add_assoc])

/-- The thunk spells a text of the Base: its cells, its characters and their packed codes are
evaluated. -/
inductive SpellsText (m : Machine) : ThunkId → Base.String → Prop where
  | nil {id : ThunkId} (h : m.thunkAt id = some (.Ready (.Constructor "SNil" []))) :
      SpellsText m id .SNil
  | cons {id character code tail : ThunkId} {bits : UInt32} {text : Base.String}
      (h : m.thunkAt id = some (.Ready (.Constructor "SCon" [character, tail])))
      (hcharacter : m.thunkAt character = some (.Ready (.Constructor "Chr" [code])))
      (hcode : m.thunkAt code = some (.Ready (.PackedWord .U32 bits)))
      (htail : SpellsText m tail text) : SpellsText m id (.SCon ⟨encode bits⟩ text)

theorem SpellsText.extends {id : ThunkId} {text : Base.String} (h : SpellsText m id text)
    (hext : m.Extends m') : SpellsText m' id text := by
  induction h with
  | nil h => exact .nil (hext.thunks _ _ h)
  | cons h hcharacter hcode _ ih =>
    exact .cons (hext.thunks _ _ h) (hext.thunks _ _ hcharacter) (hext.thunks _ _ hcode) ih

theorem ends_word (hsound : m.Sound) (hpacked : setting.program.packed = true) (bits : UInt32) :
    Ends (budget setting) 1 (numericWordValue setting "U32" bits) m
      (Holds m (.Ready (.PackedWord .U32 bits))) P := by
  unfold numericWordValue
  rw [if_pos hpacked]
  exact ends_allocate hsound trivial

theorem ends_constructor (hsound : m.Sound) (name : String) (fields : List ThunkId) :
    Ends (budget setting) 1 (readyConstructor setting name fields) m
      (Holds m (.Ready (.Constructor name fields))) P := ends_allocate hsound trivial

theorem encode_ofNat (code : Nat) : encode (UInt32.ofNat code) = Base.U32.literal code := by
  apply Base.U32.toNat_inj
  rw [toNat_encode, UInt32.toNat_ofNat', Base.U32.toNat_literal]

/-- The bytes go in front of the text, the first of them innermost. -/
theorem ends_textSpine (hsound : m.Sound) (hpacked : setting.program.packed = true)
    (bytes : List Nat) {result : ThunkId} {text : Base.String}
    (hresult : SpellsText m result text) :
    Ends (budget setting) (4 * bytes.length) (textSpine setting bytes result) m
      (fun id m' => m.Extends m' ∧
        SpellsText m' id (Base.String.ofCodes bytes.reverse text)) P := by
  induction bytes generalizing m result text with
  | nil => exact Ends.pure ⟨.refl hsound, hresult⟩
  | cons byte bytes ih =>
    refine (Ends.bind (k := 1) (j := 3 + 4 * bytes.length) (ends_tick hsound)
      fun _ m₁ h₁ => ?_).more (by rw [List.length_cons]; omega)
    refine (Ends.bind (k := 1) (j := 2 + 4 * bytes.length)
      (ends_word h₁.sound hpacked (UInt32.ofNat byte)) fun code m₂ h₂ => ?_).more (by omega)
    refine (Ends.bind (k := 1) (j := 1 + 4 * bytes.length)
      (ends_constructor h₂.1.sound "Chr" [code]) fun character m₃ h₃ => ?_).more (by omega)
    refine Ends.bind (k := 1) (j := 4 * bytes.length)
      (ends_constructor h₃.1.sound "SCon" [character, result]) fun cell m₄ h₄ => ?_
    have hcell : SpellsText m₄ cell (.SCon ⟨Base.U32.literal byte⟩ text) := by
      rw [← encode_ofNat]
      exact .cons h₄.2 (h₄.1.thunks _ _ h₃.2) (h₄.1.thunks _ _ (h₃.1.thunks _ _ h₂.2))
        (hresult.extends (h₁.trans (h₂.1.trans (h₃.1.trans h₄.1))))
    refine (ih h₄.1.sound hcell).imp fun id m₅ h₅ => ?_
    refine ⟨h₁.trans (h₂.1.trans (h₃.1.trans (h₄.1.trans h₅.1))), ?_⟩
    rw [List.reverse_cons, Base.String.ofCodes_append]
    exact h₅.2

theorem decimalBytes_eq (n : Nat) : decimalBytes n = Base.decimalCodes n := rfl

/-- **`Show` on a known natural** spells what `Nat.show` gives, and overflows past 48 bits. -/
theorem settles_show (hsound : m.Sound) (hpacked : setting.program.packed = true)
    (hframes : frames.length < setting.limits.frames) {next : ThunkId} {n : Nat}
    (hknown : Known m next n)
    (hafford : (budget setting).affords m (1 + 4 * (Base.decimalCodes n).length)) :
    Settles setting frames m ⟨.Show, [next], [], 0⟩ next
      (fun id m' => n ≤ natMax ∧ m.Extends m' ∧ SpellsText m' id (Base.natShow n))
      fun err => natMax < n ∧ Overflows err := by
  refine settles_consumes hsound hframes (show Consumes .Show from .inl rfl) hknown
    (fun state' hop hle => ?_) hafford rfl rfl rfl (Nat.zero_le _) (Nat.zero_add n).symm
  unfold finishNat
  rw [hop, Base.natShow_eq]
  refine Ends.bind (k := 1) (j := 4 * (Base.decimalCodes n).length)
    (ends_constructor hsound "SNil" []) fun nil m₁ h₁ => ?_
  have hspine := ends_textSpine (P := fun _ => False) h₁.1.sound hpacked
    (decimalBytes n).reverse (SpellsText.nil h₁.2)
  rw [List.length_reverse, List.reverse_reverse, decimalBytes_eq] at hspine
  exact hspine.imp fun id m₂ h₂ => ⟨h₁.1.trans h₂.1, h₂.2⟩

/-- **`ToU32` on a known natural** is the word that `U32.from_nat` gives. -/
theorem settles_toU32 (hsound : m.Sound) (hpacked : setting.program.packed = true)
    (hframes : frames.length < setting.limits.frames) {next : ThunkId} {n : Nat}
    (hknown : Known m next n) (hafford : (budget setting).affords m 1) :
    Settles setting frames m ⟨.ToU32, [next], [], 0⟩ next
      (fun id m' => n ≤ natMax ∧
        Holds m (.Ready (.PackedWord .U32 (decode (Base.U32.fromNat n)))) id m')
      fun err => natMax < n ∧ Overflows err := by
  refine settles_consumes hsound hframes (show Consumes .ToU32 from .inr rfl) hknown
    (fun state' hop hle => ?_) hafford rfl rfl rfl (Nat.zero_le _) (Nat.zero_add n).symm
  have hword : decode (Base.U32.fromNat n) = UInt32.ofNat n := by
    rw [Base.U32.fromNat_eq, ← encode_ofNat, decode_encode]
  unfold finishNat
  rw [hop, hword]
  exact ends_word hsound hpacked _

/-- An immediate operand that is not the last one. -/
theorem natStep_first {operation : NatOperation} (hdemands : Demands setting operation)
    (hop : operation ≠ .FromU32) (hframes : frames.length < setting.limits.frames)
    {left right : ThunkId} {x : Nat} (hx : x ≤ natMax) (hzero : ¬(operation = .Mul ∧ x = 0)) :
    natStep setting ⟨operation, [left, right], [], 0⟩ (.PackedNat x) frames m =
      .ok (right, .Natural ⟨operation, [left, right], [x], 0⟩ :: frames) m := by
  rw [natStep_immediate hdemands hop, Nat.add_zero, bounded_eq _ hx, pure_bind]
  unfold knownOperand
  rw [if_neg fun h => hzero ⟨h.1, h.2.2⟩]
  exact demandNatural_run hframes right

/-- The last immediate operand. -/
theorem natStep_last {operation : NatOperation} (hdemands : Demands setting operation)
    (hop : operation ≠ .FromU32) {arguments : List ThunkId} {values : List Nat} {x : Nat}
    (hx : x ≤ natMax) (hlast : values.length + 1 = arguments.length)
    (hzero : ¬(operation = .Mul ∧ values = [] ∧ x = 0)) :
    natStep setting ⟨operation, arguments, values, 0⟩ (.PackedNat x) frames = do
      let id ← finishNat setting ⟨operation, arguments, values ++ [x], 0⟩ x
      return (id, frames) := by
  rw [natStep_immediate hdemands hop, Nat.add_zero, bounded_eq _ hx, pure_bind]
  unfold knownOperand
  rw [if_neg hzero]
  simp only [List.length_append, List.length_singleton, hlast, Nat.lt_irrefl, if_false]

/-- **Two immediate operands** are handed to the end of the operation together. -/
theorem settles_pair (hsound : m.Sound) (hframes : frames.length < setting.limits.frames)
    {operation : NatOperation} (hdemands : Demands setting operation) (hop : operation ≠ .FromU32)
    {left right : ThunkId} {x y k : Nat} (hleft : Evaluated m left (.PackedNat x))
    (hright : Evaluated m right (.PackedNat y)) (hzero : ¬(operation = .Mul ∧ x = 0))
    {Q : ThunkId → Machine → Prop}
    (hfinish : Ends (budget setting) k
      (finishNat setting ⟨operation, [left, right], [x, y], 0⟩ y) m Q P)
    (hafford : (budget setting).affords m k) :
    Settles setting frames m ⟨operation, [left, right], [], 0⟩ left Q P := by
  refine Settles.more hleft (natStep_first hdemands hop hframes (hleft.counted hsound) hzero)
    (Settles.of_ends hright ?_ hafford)
  rw [natStep_last hdemands hop (hright.counted hsound) rfl (by simp)]
  exact Ends.map (hfinish.imp fun id m' hQ => ⟨rfl, hQ⟩)

/-- A result that is an immediate natural, or an overflow. -/
theorem ends_bounded (hsound : m.Sound) (hpacked : setting.program.packed = true) (n : Nat)
    (message : String) :
    Ends (budget setting) 1 (bounded n message >>= nat setting) m
      (fun id m' => n ≤ natMax ∧ Holds m (.Ready (.PackedNat n)) id m')
      fun err => natMax < n ∧ Overflows err := by
  rcases Nat.lt_or_ge natMax n with hlt | hle
  · rw [bounded_overflow _ hlt]
    exact Ends.error rfl (.inl ⟨hlt, rfl⟩)
  · rw [bounded_eq _ hle, pure_bind]
    exact (ends_nat hsound hpacked hle).imp fun id m' h => ⟨hle, h⟩

/-- **`Sub` on immediate operands.** -/
theorem settles_sub (hsound : m.Sound) (hpacked : setting.program.packed = true)
    (hframes : frames.length < setting.limits.frames) {left right : ThunkId} {x y : Nat}
    (hleft : Evaluated m left (.PackedNat x)) (hright : Evaluated m right (.PackedNat y))
    (hafford : (budget setting).affords m 1) :
    Settles setting frames m ⟨.Sub, [left, right], [], 0⟩ left
      (Holds m (.Ready (.PackedNat (Base.natSub x y)))) P := by
  have hx : x ≤ natMax := hleft.counted hsound
  refine settles_pair hsound hframes ⟨by decide, fun _ => ⟨by decide, by decide⟩⟩ (by decide) hleft
    hright (by simp) ?_ hafford
  rw [Base.natSub_eq]
  exact ends_nat hsound hpacked (Nat.le_trans (Nat.sub_le x y) hx)

/-- The constructor of a comparison of the Base. -/
def cmpName : Base.Cmp → String
  | .LT => "LT"
  | .EQ => "EQ"
  | .GT => "GT"

theorem orderName_eq (x y : Nat) : orderName x y = cmpName (Base.natCmp x y) := by
  fun_induction Base.natCmp x y with
  | case1 => rfl
  | case2 y => rfl
  | case3 x => rfl
  | case4 x y ih =>
    rw [← ih]
    simp only [orderName, Nat.succ_lt_succ_iff, Nat.succ.injEq]

/-- **`Cmp` on immediate operands.** -/
theorem settles_cmp (hsound : m.Sound) (hframes : frames.length < setting.limits.frames)
    {left right : ThunkId} {x y : Nat} (hleft : Evaluated m left (.PackedNat x))
    (hright : Evaluated m right (.PackedNat y)) (hafford : (budget setting).affords m 1) :
    Settles setting frames m ⟨.Cmp, [left, right], [], 0⟩ left
      (Holds m (.Ready (.Constructor (cmpName (Base.natCmp x y)) []))) P := by
  refine settles_pair hsound hframes ⟨by decide, fun _ => ⟨by decide, by decide⟩⟩ (by decide) hleft
    hright (by simp) ?_ hafford
  rw [← orderName_eq]
  exact ends_constructor hsound _ _

/-- **`Mul` on immediate operands** is the product, and overflows where it does not fit. -/
theorem settles_mul (hsound : m.Sound) (hpacked : setting.program.packed = true)
    (hframes : frames.length < setting.limits.frames) {left right : ThunkId} {x y : Nat}
    (hleft : Evaluated m left (.PackedNat x)) (hright : Evaluated m right (.PackedNat y))
    (hafford : (budget setting).affords m 1) :
    Settles setting frames m ⟨.Mul, [left, right], [], 0⟩ left
      (fun id m' => Base.natMul x y ≤ natMax ∧
        Holds m (.Ready (.PackedNat (Base.natMul x y))) id m')
      fun err => natMax < Base.natMul x y ∧ Overflows err := by
  have hdemands : Demands setting .Mul := ⟨by decide, fun _ => ⟨by decide, by decide⟩⟩
  rw [Base.natMul_eq]
  rcases Nat.eq_zero_or_pos x with rfl | hpos
  · -- a zero on the left answers without a look at the right operand
    refine Settles.of_ends hleft ?_ hafford
    rw [natStep_immediate hdemands (show NatOperation.Mul ≠ .FromU32 by decide), Nat.zero_mul]
    exact Ends.map ((ends_nat hsound hpacked (Nat.zero_le _)).imp fun id m' h =>
      ⟨rfl, Nat.zero_le _, h⟩)
  · exact settles_pair hsound hframes hdemands (by decide) hleft hright (by omega)
      (ends_bounded hsound hpacked _ _) hafford

/-- **Strict `Add` on immediate operands.** -/
theorem settles_add (hstrict : setting.program.strict = true) (hsound : m.Sound)
    (hpacked : setting.program.packed = true) (hframes : frames.length < setting.limits.frames)
    {left right : ThunkId} {x y : Nat} (hleft : Evaluated m left (.PackedNat x))
    (hright : Evaluated m right (.PackedNat y)) (hafford : (budget setting).affords m 1) :
    Settles setting frames m ⟨.Add, [left, right], [], 0⟩ left
      (fun id m' => x + y ≤ natMax ∧ Holds m (.Ready (.PackedNat (x + y))) id m')
      fun err => natMax < x + y ∧ Overflows err :=
  settles_pair hsound hframes ⟨by decide, fun hlazy => by rw [hstrict] at hlazy; cases hlazy⟩
    (by decide) hleft hright (by simp) (ends_bounded hsound hpacked _ _) hafford

/-- **Strict `Double` on an immediate operand.** -/
theorem settles_double (hstrict : setting.program.strict = true) (hsound : m.Sound)
    (hpacked : setting.program.packed = true) {n : ThunkId} {x : Nat}
    (hn : Evaluated m n (.PackedNat x)) (hafford : (budget setting).affords m 1) :
    Settles setting frames m ⟨.Double, [n], [], 0⟩ n
      (fun id m' => x + x ≤ natMax ∧ Holds m (.Ready (.PackedNat (x + x))) id m')
      fun err => natMax < x + x ∧ Overflows err := by
  refine Settles.of_ends hn ?_ hafford
  have hdemands : Demands setting .Double :=
    ⟨by decide, fun hlazy => by rw [hstrict] at hlazy; cases hlazy⟩
  rw [natStep_last hdemands (by decide) (hn.counted hsound) rfl (by simp)]
  exact Ends.map ((ends_bounded hsound hpacked _ _).imp fun id m' h => ⟨rfl, h⟩)

/-- **`FromU32` on a packed word** is the number that `U32.to_nat` gives. -/
theorem settles_fromU32 (hsound : m.Sound) (hpacked : setting.program.packed = true)
    {next : ThunkId} {bits : UInt32} (hnext : Evaluated m next (.PackedWord .U32 bits))
    (hafford : (budget setting).affords m 1) :
    Settles setting frames m ⟨.FromU32, [next], [], 0⟩ next
      (Holds m (.Ready (.PackedNat (encode bits).toNat))) P := by
  have hbits : bits.toNat ≤ natMax :=
    Nat.le_of_lt (Nat.lt_of_lt_of_le bits.toNat_lt (by decide))
  refine Settles.of_ends hnext ?_ hafford
  have hdemands : Demands setting .FromU32 := ⟨by decide, fun _ => ⟨by decide, by decide⟩⟩
  rw [toNat_encode, natStep_demands hdemands]
  show Ends _ _ (nat setting bits.toNat >>= fun id => pure (id, frames)) _ _ _
  exact Ends.map ((ends_nat hsound hpacked hbits).imp fun id m' h => ⟨rfl, h⟩)

/-- Whether `nat_step` computes with an operand of this form itself. -/
def Usable (operation : NatOperation) : Value → Prop
  | .PackedWord .U32 _ => operation = .FromU32
  | .PackedNat _ => operation ≠ .FromU32
  | .NatPrefix _ _ => Consumes operation
  | .Constructor name fields => Consumes operation ∧
      (name = "Zero" ∧ fields = [] ∨ name = "Succ" ∧ fields.length = 1)
  | _ => False

/-- **Any other operand** sends the call into the checked body, with the arguments it had. -/
theorem ends_fallback (hsound : m.Sound) (hsealed : setting.program.Sealed)
    (hmem : state.operation ∈ setting.program.natOptimizations)
    (hdemands : Demands setting state.operation) {value : Value}
    (hvalue : ¬Usable state.operation value) :
    Ends (budget setting) (1 + state.arguments.length) (natStep setting state value frames) m
      (fun r m' => r.2 = frames ∧ m.Extends m' ∧
        EntersBody setting m' state.operation state.arguments r.1) P := by
  have henters : Ends (budget setting) (1 + state.arguments.length)
      (enterBody setting state frames) m (fun r m' => r.2 = frames ∧ m.Extends m' ∧
        EntersBody setting m' state.operation state.arguments r.1) P :=
    Ends.map ((ends_ordinaryNat hsound hsealed hmem _).imp fun id m' h => ⟨rfl, h⟩)
  rw [natStep_demands hdemands]
  unfold strictNatStep
  cases value with
  | PackedWord wrapper bits =>
    cases wrapper with
    | U32 => exact Ends.ite (fun h => absurd h hvalue) fun _ => henters
    | F32 => exact henters
  | PackedNat n => exact Ends.ite (fun h => absurd h hvalue) fun _ => henters
  | NatPrefix count tail => exact Ends.ite (fun h => absurd h hvalue) fun _ => henters
  | Constructor name fields =>
    rcases fields with _ | ⟨next, _ | ⟨next', rest⟩⟩
    · exact Ends.ite (fun h => absurd ⟨h.1, .inl ⟨h.2, rfl⟩⟩ hvalue) fun _ => henters
    · exact Ends.ite (fun h => absurd ⟨h.1, .inr ⟨h.2, rfl⟩⟩ hvalue) fun _ => henters
    · exact henters
  | _ => exact henters

/-- **`strict_constructor` seals a successor** of an immediate natural, and overflows where it does
not fit. -/
theorem ends_strictConstructor (hpacked : setting.program.packed = true) (field : ThunkId)
    (n : Nat) :
    Ends (budget setting) 0 (strictConstructor setting "Succ" [field] (.PackedNat n)) m
      (fun value m' => m' = m ∧ n + 1 ≤ natMax ∧ value = .PackedNat (n + 1))
      fun err => natMax < n + 1 ∧ Overflows err := by
  unfold strictConstructor
  rw [if_pos ⟨hpacked, rfl, rfl⟩]
  rcases Nat.lt_or_ge natMax (n + 1) with hlt | hle
  · show Ends _ _ (bounded (n + 1) _ >>= _) _ _ _
    rw [bounded_overflow _ hlt]
    exact Ends.error rfl (.inl ⟨hlt, rfl⟩)
  · show Ends _ _ (bounded (n + 1) _ >>= _) _ _ _
    rw [bounded_eq _ hle, pure_bind]
    exact Ends.pure ⟨rfl, hle, rfl⟩

theorem natStep_lazy (hstrict : setting.program.strict = false)
    (hop : state.operation = .Add ∨ state.operation = .Double) (value : Value) :
    natStep setting state value frames = do
      let id ← prefixArithmetic setting state value
      return (id, frames) := by
  have hnew : state.operation ≠ .ArrayNew := by
    rcases hop with hop | hop <;> rw [hop] <;> decide
  unfold natStep
  rw [if_neg hnew, if_pos ⟨by rw [hstrict]; decide, hop⟩]

/-! ## 4. The compact naturals are faithful -/

/-- What the compact naturals of a program promise. -/
structure CompactNaturals (setting : Setting) : Prop where
  reveals : ∀ m : Machine, m.Sound → ∀ value : Value, value.IsNatural → value.Counted →
    Ends (budget setting) 3 (constructorValue setting value) m (fun r m' => m.Extends m' ∧
      ∀ ρ, Reads setting m' ρ → ∃ u, ρ.value value = some u ∧ Reveals ρ r u) fun _ => False
  prefixes : ∀ m : Machine, m.Sound → ∀ count ≤ 2 * natMax, ∀ tail,
    Ends (budget setting) 2 (natPrefix setting count tail) m (fun id m' => m.Extends m' ∧
      ∀ ρ, Reads setting m' ρ → ρ.natural id = (ρ.natural tail).after count) fun _ => False
  adds : setting.program.strict = false → .Add ∈ setting.program.natOptimizations →
    ∀ m : Machine, m.Sound → ∀ frames left right value, Evaluated m left value →
    Ends (budget setting) 5 (natStep setting ⟨.Add, [left, right], [], 0⟩ value frames) m
      (fun r m' => r.2 = frames ∧ m.Extends m' ∧ ∀ ρ, Reads setting m' ρ →
        ρ.natural r.1 = natAdd (ρ.natural left) (ρ.natural right)) fun _ => False
  doubles : setting.program.strict = false → .Double ∈ setting.program.natOptimizations →
    ∀ m : Machine, m.Sound → ∀ frames n value, Evaluated m n value →
    Ends (budget setting) 5 (natStep setting ⟨.Double, [n], [], 0⟩ value frames) m
      (fun r m' => r.2 = frames ∧ m.Extends m' ∧ ∀ ρ, Reads setting m' ρ →
        ρ.natural r.1 = natDouble (ρ.natural n)) fun _ => False
  shows : ∀ m : Machine, m.Sound → ∀ frames : List Frame, frames.length < setting.limits.frames →
    ∀ id n, Known m id n → (budget setting).affords m (1 + 4 * (Base.decimalCodes n).length) →
    Settles setting frames m ⟨.Show, [id], [], 0⟩ id
      (fun r m' => n ≤ natMax ∧ m.Extends m' ∧ SpellsText m' r (Base.natShow n))
      fun err => natMax < n ∧ Overflows err
  toWord : ∀ m : Machine, m.Sound → ∀ frames : List Frame, frames.length < setting.limits.frames →
    ∀ id n, Known m id n → (budget setting).affords m 1 →
    Settles setting frames m ⟨.ToU32, [id], [], 0⟩ id
      (fun r m' => n ≤ natMax ∧
        Holds m (.Ready (.PackedWord .U32 (decode (Base.U32.fromNat n)))) r m')
      fun err => natMax < n ∧ Overflows err
  fromWord : ∀ m : Machine, m.Sound → ∀ frames id bits,
    Evaluated m id (.PackedWord .U32 bits) → (budget setting).affords m 1 →
    Settles setting frames m ⟨.FromU32, [id], [], 0⟩ id
      (Holds m (.Ready (.PackedNat (encode bits).toNat))) fun _ => False
  subtracts : ∀ m : Machine, m.Sound → ∀ frames : List Frame,
    frames.length < setting.limits.frames → ∀ left right x y, Evaluated m left (.PackedNat x) →
    Evaluated m right (.PackedNat y) → (budget setting).affords m 1 →
    Settles setting frames m ⟨.Sub, [left, right], [], 0⟩ left
      (Holds m (.Ready (.PackedNat (Base.natSub x y)))) fun _ => False
  compares : ∀ m : Machine, m.Sound → ∀ frames : List Frame,
    frames.length < setting.limits.frames → ∀ left right x y, Evaluated m left (.PackedNat x) →
    Evaluated m right (.PackedNat y) → (budget setting).affords m 1 →
    Settles setting frames m ⟨.Cmp, [left, right], [], 0⟩ left
      (Holds m (.Ready (.Constructor (cmpName (Base.natCmp x y)) []))) fun _ => False
  multiplies : ∀ m : Machine, m.Sound → ∀ frames : List Frame,
    frames.length < setting.limits.frames → ∀ left right x y, Evaluated m left (.PackedNat x) →
    Evaluated m right (.PackedNat y) → (budget setting).affords m 1 →
    Settles setting frames m ⟨.Mul, [left, right], [], 0⟩ left
      (fun id m' => Base.natMul x y ≤ natMax ∧
        Holds m (.Ready (.PackedNat (Base.natMul x y))) id m')
      fun err => natMax < Base.natMul x y ∧ Overflows err
  strictAdds : setting.program.strict = true → ∀ m : Machine, m.Sound → ∀ frames : List Frame,
    frames.length < setting.limits.frames → ∀ left right x y, Evaluated m left (.PackedNat x) →
    Evaluated m right (.PackedNat y) → (budget setting).affords m 1 →
    Settles setting frames m ⟨.Add, [left, right], [], 0⟩ left
      (fun id m' => x + y ≤ natMax ∧ Holds m (.Ready (.PackedNat (x + y))) id m')
      fun err => natMax < x + y ∧ Overflows err
  strictDoubles : setting.program.strict = true → ∀ m : Machine, m.Sound → ∀ frames n x,
    Evaluated m n (.PackedNat x) → (budget setting).affords m 1 →
    Settles setting frames m ⟨.Double, [n], [], 0⟩ n
      (fun id m' => x + x ≤ natMax ∧ Holds m (.Ready (.PackedNat (x + x))) id m')
      fun err => natMax < x + x ∧ Overflows err
  seals : ∀ (m : Machine) (field : ThunkId) (n : Nat),
    Ends (budget setting) 0 (strictConstructor setting "Succ" [field] (.PackedNat n)) m
      (fun value m' => m' = m ∧ n + 1 ≤ natMax ∧ value = .PackedNat (n + 1))
      fun err => natMax < n + 1 ∧ Overflows err
  fallsBack : ∀ m : Machine, m.Sound → ∀ frames, ∀ state : Evaluation,
    state.operation ∈ setting.program.natOptimizations → Demands setting state.operation →
    ∀ value, ¬Usable state.operation value →
    Ends (budget setting) (1 + state.arguments.length) (natStep setting state value frames) m
      (fun r m' => r.2 = frames ∧ m.Extends m' ∧
        EntersBody setting m' state.operation state.arguments r.1) fun _ => False

/-- **Compact naturals are faithful** in every program whose fast paths are sealed. -/
theorem compact_naturals (hsealed : setting.program.Sealed) : CompactNaturals setting where
  reveals _ hsound _ := ends_constructorValue hsound hsealed.packed
  prefixes _ hsound _ hcount := ends_natPrefix hsound hsealed.packed hcount
  adds hstrict hmem _ hsound _ _ _ value hleft := by
    rw [natStep_lazy hstrict (.inl rfl)]
    exact Ends.map ((ends_add hsound hsealed hmem hleft rfl rfl).imp fun id m' h => ⟨rfl, h⟩)
  doubles hstrict hmem _ hsound _ _ value hn := by
    rw [natStep_lazy hstrict (.inr rfl)]
    exact Ends.map ((ends_double hsound hsealed hmem hn rfl rfl).imp fun id m' h => ⟨rfl, h⟩)
  shows _ hsound _ hframes _ _ := settles_show hsound hsealed.packed hframes
  toWord _ hsound _ hframes _ _ := settles_toU32 hsound hsealed.packed hframes
  fromWord _ hsound _ _ _ := settles_fromU32 hsound hsealed.packed
  subtracts _ hsound _ hframes _ _ _ _ := settles_sub hsound hsealed.packed hframes
  compares _ hsound _ hframes _ _ _ _ := settles_cmp hsound hframes
  multiplies _ hsound _ hframes _ _ _ _ := settles_mul hsound hsealed.packed hframes
  strictAdds hstrict _ hsound _ hframes _ _ _ _ :=
    settles_add hstrict hsound hsealed.packed hframes
  strictDoubles hstrict _ hsound _ _ _ := settles_double hstrict hsound hsealed.packed
  seals _ := ends_strictConstructor hsealed.packed
  fallsBack _ hsound _ _ hmem hdemands _ := ends_fallback hsound hsealed hmem hdemands

/-! ## 5. A product past 48 bits -/

/-- The body of `Nat.add`. -/
def sumBody : Term :=
  .Mat "Zero" (.Lam "b" 1 (.Var "b" 1))
    (.Mat "Succ" (.Lam "p" 2 (.Lam "b" 1
      (.Ctr "Succ" [.App (.App (.Ref "Nat.add") (.Var "p" 2)) (.Var "b" 1)]))) .Efq)

/-- The body of `Nat.mul`. -/
def productBody : Term :=
  .Mat "Zero" (.Lam "b" 1 (.Ctr "Zero" []))
    (.Mat "Succ" (.Lam "p" 2 (.Lam "b" 1
      (.App (.App (.Ref "Nat.add") (.Var "b" 1))
        (.App (.App (.Ref "Nat.mul") (.Var "p" 2)) (.Var "b" 1))))) .Efq)

/-- The type of both, where `Nat.mul` may use its second operand more than once. -/
def operatorType (quant : Kernel.Quant) : Term :=
  .All .Lone "a" 0 (.Ref "Nat") (.All quant "b" 1 (.Ref "Nat") (.Ref "Nat"))

/-- A lazy program with `Nat.add` and `Nat.mul`. -/
def mulSetting : Setting where
  program :=
    { definitions :=
        [("Nat.add", ⟨"Nat.add", [], none, operatorType .Lone, some sumBody, false, false⟩),
          ("Nat.mul", ⟨"Nat.mul", [], none, operatorType .Many, some productBody, false, false⟩)]
      datatypes := []
      foreign := []
      numeric := []
      optimizations := []
      natOptimizations := [.Add, .Mul]
      packed := true
      strict := false }
  limits := .runtime
  floats := ⟨fun _ _ => 0, fun _ => "", fun _ => none⟩
  compressing := false

/-- The operands `2 ^ 47` and `2`. -/
def mulMachine : Machine where
  arena := [some (.Ready (.PackedNat 140737488355328)), some (.Ready (.PackedNat 2))]
  environments := [some ⟨none, []⟩]
  freeThunks := []
  freeEnvironments := []
  callerRoots := []
  hostRoots := []
  allocationDebt := 0
  globals := []
  remaining := 2000000

theorem sealed_mulSetting : mulSetting.program.Sealed where
  packed := rfl
  body operation hmem := by
    simp only [mulSetting, List.mem_cons, List.not_mem_nil, or_false] at hmem
    rcases hmem with rfl | rfl <;> exact ⟨_, rfl, trivial⟩
  apart _ := rfl

theorem sound_sumMachine : sumMachine.Sound where
  nodup := List.nodup_nil
  vacant _ hid := by cases hid
  counted id value h := by
    rcases thunkAt_sumMachine h with ⟨-, h⟩ | ⟨-, h⟩ | ⟨-, h⟩ | ⟨-, h⟩ | ⟨-, h⟩ <;> cases h <;>
      simp [Value.Counted, natMax]

theorem sound_mulMachine : mulMachine.Sound where
  nodup := List.nodup_nil
  vacant _ hid := by cases hid
  counted id value h := by
    rcases id with _ | _ | id <;> cases h <;> simp [Value.Counted, natMax]

/-- The sum is there for every reading of what the step leaves, where the sum of `2` and `3` has one
to begin with; and a difference is a packed number. -/
theorem compact_naturals_sum :
    Reads mulSetting sumMachine sumMeaning ∧
    Ends (budget mulSetting) 5 (natStep mulSetting ⟨.Add, [0, 1], [], 0⟩ (.PackedNat 2) [])
      sumMachine (fun r m' => r.2 = [] ∧ sumMachine.Extends m' ∧ ∀ ρ, Reads mulSetting m' ρ →
        ρ.natural r.1 = natAdd (ρ.natural 0) (ρ.natural 1)) (fun _ => False) ∧
    Settles mulSetting [] mulMachine ⟨.Sub, [0, 1], [], 0⟩ 0
      (Holds mulMachine (.Ready (.PackedNat (Base.natSub 140737488355328 2)))) fun _ => False :=
  ⟨reads_sumMachine,
    (compact_naturals sealed_mulSetting).adds rfl (by decide) sumMachine sound_sumMachine [] 0 1 _
      (.ready rfl),
    (compact_naturals sealed_mulSetting).subtracts mulMachine sound_mulMachine [] (by decide)
      0 1 _ _ (.ready rfl) (.ready rfl) ⟨by decide, by decide⟩⟩

theorem evaluated_mulMachine {id : ThunkId} {value : Value} (h : Evaluated mulMachine id value) :
    id = 0 ∧ value = .PackedNat 140737488355328 ∨ id = 1 ∧ value = .PackedNat 2 := by
  rcases id with _ | _ | id
  · cases h with
    | ready h =>
      cases h
      exact .inl ⟨rfl, rfl⟩
    | through h _ => cases h
  · cases h with
    | ready h =>
      cases h
      exact .inr ⟨rfl, rfl⟩
    | through h _ => cases h
  · cases h with
    | ready h => cases h
    | through h _ => cases h

/-- In lazy mode the product of `2 ^ 47` and `2` has no result, though the body of `Nat.mul` gives
one. -/
theorem lazy_product_overflows :
    Base.natMul 140737488355328 2 = 281474976710656 ∧
      ¬∃ id m', Runs mulSetting [] mulMachine ⟨.Mul, [0, 1], [], 0⟩ 0 (.ok id m') := by
  have hdemands : Demands mulSetting .Mul := ⟨by decide, fun _ => ⟨by decide, by decide⟩⟩
  have hfirst : natStep mulSetting ⟨.Mul, [0, 1], [], 0⟩ (.PackedNat 140737488355328) []
      mulMachine = .ok (1, [.Natural ⟨.Mul, [0, 1], [140737488355328], 0⟩]) mulMachine :=
    natStep_first hdemands (by decide) (by decide) (by decide) (by decide)
  have hlast : natStep mulSetting ⟨.Mul, [0, 1], [140737488355328], 0⟩ (.PackedNat 2) []
      mulMachine = .error (.natOverflow "a Nat past the largest immediate 2^48-1") mulMachine := by
    rw [natStep_last hdemands (by decide) (by decide) rfl (by decide)]
    rfl
  refine ⟨by rw [Base.natMul_eq], ?_⟩
  rintro ⟨id, m', hruns⟩
  cases hruns with
  | done hvalue hstep =>
    rcases evaluated_mulMachine hvalue with ⟨-, rfl⟩ | ⟨hid, -⟩
    · rw [hfirst] at hstep
      cases hstep
    · cases hid
  | more hvalue hstep hrest =>
    rcases evaluated_mulMachine hvalue with ⟨-, rfl⟩ | ⟨hid, -⟩
    · rw [hfirst] at hstep
      cases hstep
      cases hrest with
      | done hvalue hstep =>
        rcases evaluated_mulMachine hvalue with ⟨hid, -⟩ | ⟨-, rfl⟩
        · cases hid
        · rw [hlast] at hstep
          cases hstep
      | more hvalue hstep _ =>
        rcases evaluated_mulMachine hvalue with ⟨hid, -⟩ | ⟨-, rfl⟩
        · cases hid
        · rw [hlast] at hstep
          cases hstep
    · cases hid

end TeamyBend.Runtime.Evaluator
