/-
# Normalization and its head memo

`normalize` keeps a memo of constructor heads while it runs: an application that was reduced to a
constructor once is not reduced again where the same allocation is met.  `whnf` looks into the memo
whenever there is one, so here stands the `whnf` of every engine, and with it everything above it:
`compare`, `infer` and `check`.  The functions of `Reduce` and `Check` are these on an engine without
a memo (`returns_memo_iff`), and no other engine reaches the checker, since only `normalize` makes a
memo.

The memo is a list of entries, the newest first.  That an entry is kept for the allocation of a term
is for `Pointers.entry` to say.
-/
import TeamyBend.Kernel.Check

namespace TeamyBend.Kernel

/-! ## 1. The memo -/

/-- The entry of an allocation: an entry is called by its number from the oldest. -/
def memoGet (p : Pointers) (fuel : Nat) (value : Term) : List (Term × Term) → Option Term
  | [] => none
  | (key, head) :: entries =>
    if p.entry fuel entries.length value key then some head else memoGet p fuel value entries

/-- `NormalizationMemo::get`, where there is a memo. -/
def cached (value : Term) : M (Option Term) := do
  let e ← get
  match value, e.normalizationMemo with
  | .App _ _, some entries => return memoGet e.pointers e.fuel value entries
  | _, _ => return none

/-- `NormalizationMemo::insert`, where there is a memo. -/
def memoInsert (value head : Term) (e : Engine) : Engine :=
  match value, head, e.normalizationMemo with
  | .App _ _, .Ctr _ _, some entries =>
    { e with normalizationMemo := some ((value, head) :: entries) }
  | _, _, _ => e

/-- The head of `value`, from the memo or else by `m`, which is then kept. -/
def shared (value : Term) (m : M Term) : M Term := do
  match ← cached value with
  | some result => return result
  | none => do
    let result ← m
    modify (memoInsert value result)
    return result

namespace Memo

/-! ## 2. The functions over it -/

/-- `Engine::whnf`. -/
def whnf : Nat → Term → M Term
  | 0, _ => exhausted
  | gas + 1, value => charged (shared value (whnfInner (whnf gas) gas gas value))

/-- `Engine::compare`. -/
def compare : Nat → Comparison → Term → Term → M Bool
  | 0, _, _, _ => exhausted
  | gas + 1, mode, left, right => charged (compareInner (whnf gas) (compare gas) mode left right)

/-- What a rule calls. -/
def calls (gas : Nat) : Callees := ⟨gas, whnf gas, compare gas⟩

/-- `Engine::infer` and `Engine::check`. -/
def rules : Nat → Rules
  | 0 => ⟨fun _ _ _ _ _ => exhausted, fun _ _ _ _ _ => exhausted⟩
  | gas + 1 =>
    { infer := fun lhs value demand Γ arguments =>
        charged (inferInner (calls gas) (rules gas) lhs value demand Γ arguments)
      check := fun lhs value demand ty Γ =>
        charged (checkInner (calls gas) (rules gas) lhs value demand ty Γ) }

/-- `Engine::infer`. -/
def infer (gas : Nat) : Lhs → Term → Quant → Context → List Term → M (Term × Uses) :=
  (rules gas).infer

/-- `Engine::check`. -/
def check (gas : Nat) : Lhs → Term → Quant → Term → Context → M Uses := (rules gas).check

end Memo

section Normalize

variable (whnf normalize : Term → M Term)

/-- `Engine::normalize_inner`. -/
def normalizeInner (value : Term) : M Term := do
  match ← whnf value with
  | .Typ g => do return .Typ (← normalize g)
  | .Min a b => do return .Min (← normalize a) (← normalize b)
  | .All quant name id domain body => do
    let x ← freshId
    let domain ← normalize domain
    let body ← normalize (substitute id (.Var name x) body)
    return .All quant name x domain body
  | .Lam name id body => do
    let x ← freshId
    let body ← normalize (substitute id (.Var name x) body)
    return .Lam name x body
  | .Mat constructor arm fallback => do
    return .Mat constructor (← normalize arm) (← normalize fallback)
  | .Rwt evidence motive body => do
    return .Rwt (← normalize evidence) (← normalize motive) (← normalize body)
  | .Ctr name args => do return .Ctr name (← mapTerms normalize args)
  | .Adt name args excluded => do return .Adt name (← mapTerms normalize args) excluded
  | .App f x => do return .App (← normalize f) (← normalize x)
  | .Eql left right ty => do
    return .Eql (← normalize left) (← normalize right) (← normalize ty)
  | value => return value

end Normalize

/-- The memo of the outermost call: made where there is none, and dropped by the call that made
it. -/
def withMemo {α : Type} (m : M α) : M α := do
  let e ← get
  if e.normalizationMemo.isSome then m
  else do
    set { e with normalizationMemo := some [] }
    ensuring m fun e => { e with normalizationMemo := none }

/-- `Engine::normalize`. -/
def normalize : Nat → Term → M Term
  | 0, _ => exhausted
  | gas + 1, value => charged (withMemo (normalizeInner (Memo.whnf gas) (normalize gas) value))

end TeamyBend.Kernel
