/-
# What a program marks for the device

A reference may carry a mark, which leaves the call to the device.  `marked_names` looks at the
definitions that `main` may come to, one after the other, and collects the names that are marked
there.  What is erased is no reference and carries no mark.

The walk ends, and the names that it collects are those that are marked in a definition that is
reachable from `main` (`markedNames_exact`).
-/
import Mathlib.Data.Finset.Card
import Mathlib.Data.Finset.Dedup
import Mathlib.Data.Finset.SDiff
import TeamyBend.Compiler.Specialization
import TeamyBend.Library.Worklist

namespace TeamyBend.Compiler.Gpu

open Kernel (Binder Quant Term)
open Library (Reaches Search)

/-! ## 1. The source -/

/-- What was found so far: the names that are marked, and those that are referred to, the last one
first. -/
structure Found where
  marks : Finset String
  references : List String

mutual

/-- `expression_references`. -/
def expressionReferences : Expression → Found → Found
  | .mk _ _ kind gpuReference, found =>
    match kind with
    | .Definition name =>
      { marks := if gpuReference then insert name found.marks else found.marks
        references := name :: found.references }
    | .Lambda _ body => expressionReferences body found
    | .Apply function argument quant =>
      if quant ≠ .None then expressionReferences argument (expressionReferences function found)
      else expressionReferences function found
    | .Constructor _ _ fields => fieldReferences fields found
    | .Match _ _ _ _ arm fallback => expressionReferences fallback (expressionReferences arm found)
    | .Let bindings body => expressionReferences body (fieldReferences bindings found)
    | .Erased | .Variable _ | .Absurd _ _ => found

/-- The fields of a constructor or the bindings of a `let`, those that are not erased. -/
def fieldReferences : List (Field Expression) → Found → Found
  | [], found => found
  | ⟨binder, value⟩ :: fields, found =>
    if binder.quant ≠ .None then fieldReferences fields (expressionReferences value found)
    else fieldReferences fields found

end

/-- The body of a definition that is an expression. -/
def ordinaryBody (definitions : List (String × Definition)) (name : String) : Option Expression :=
  match definitions.find? (·.1 = name) with
  | some (_, ⟨_, _, .Ordinary body⟩) => some body
  | _ => none

/-- A name with a body is among the definitions. -/
theorem mem_of_ordinaryBody {definitions : List (String × Definition)} {name : String}
    {body : Expression} (h : ordinaryBody definitions name = some body) :
    name ∈ (definitions.map Prod.fst).toFinset := by
  unfold ordinaryBody at h
  split at h
  · next found ty parameters body' hfind =>
    have hname : found = name := by simpa using List.find?_some hfind
    exact List.mem_toFinset.2 (List.mem_map.2 ⟨_, List.mem_of_find?_eq_some hfind, hname⟩)
  · cases h

section Measure

variable {α : Type} [DecidableEq α] {names seen : Finset α} {name : α} {a b c d : Nat}

theorem unseen_le : (names \ insert name seen).card ≤ (names \ seen).card :=
  Finset.card_le_card (Finset.sdiff_subset_sdiff (Finset.Subset.refl _) (Finset.subset_insert ..))

/-- A name that is seen for the first time. -/
theorem unseen_lt (hname : name ∈ names) (hseen : name ∉ seen) :
    (names \ insert name seen).card < (names \ seen).card := by
  refine Finset.card_lt_card ⟨Finset.sdiff_subset_sdiff (Finset.Subset.refl _)
    (Finset.subset_insert ..), fun hsub => ?_⟩
  have hin := hsub (Finset.mem_sdiff.2 ⟨hname, hseen⟩)
  exact (Finset.mem_sdiff.1 hin).2 (Finset.mem_insert_self ..)

theorem lex_of_le (h : a ≤ b) (h' : c < d) : Prod.Lex (· < ·) (· < ·) (a, c) (b, d) := by
  rcases Nat.lt_or_eq_of_le h with hlt | rfl
  · exact .left _ _ hlt
  · exact .right _ h'

end Measure

/-- The loop of `marked_names`; the queue is taken from its end, which is first here. -/
def markedFrom (definitions : List (String × Definition)) (marks seen : Finset String) :
    List String → Finset String
  | [] => marks
  | name :: queue =>
    if name ∈ seen then markedFrom definitions marks seen queue
    else
      match _hbody : ordinaryBody definitions name with
      | none => markedFrom definitions marks (insert name seen) queue
      | some body =>
        markedFrom definitions (expressionReferences body ⟨marks, queue⟩).marks (insert name seen)
          (expressionReferences body ⟨marks, queue⟩).references
termination_by queue =>
  (((definitions.map Prod.fst).toFinset \ seen).card, queue.length)
decreasing_by
  · exact lex_of_le (Nat.le_refl _) (Nat.lt_succ_self _)
  · exact lex_of_le unseen_le (Nat.lt_succ_self _)
  · exact .left _ _ (unseen_lt (mem_of_ordinaryBody _hbody) ‹name ∉ seen›)

/-- `marked_names`. -/
def markedNames (definitions : List (String × Definition)) : Finset String :=
  markedFrom definitions ∅ ∅ ["main"]

/-! ## 2. References -/

/-- A name is referred to in an expression, at a place that is not erased. -/
inductive Occurs (name : String) (mark : Bool) : Expression → Prop
  | definition {ty source : Term} : Occurs name mark (.mk ty source (.Definition name) mark)
  | body {ty source : Term} {parameter : Binder Term} {body : Expression} {gpu : Bool}
    (h : Occurs name mark body) : Occurs name mark (.mk ty source (.Lambda parameter body) gpu)
  | function {ty source : Term} {function argument : Expression} {quant : Quant} {gpu : Bool}
    (h : Occurs name mark function) :
    Occurs name mark (.mk ty source (.Apply function argument quant) gpu)
  | argument {ty source : Term} {function argument : Expression} {quant : Quant} {gpu : Bool}
    (hquant : quant ≠ .None) (h : Occurs name mark argument) :
    Occurs name mark (.mk ty source (.Apply function argument quant) gpu)
  | field {ty source : Term} {owner constructor : String} {fields : List (Field Expression)}
    {field : Field Expression} {gpu : Bool} (hfield : field ∈ fields)
    (hquant : field.binder.quant ≠ .None) (h : Occurs name mark field.value) :
    Occurs name mark (.mk ty source (.Constructor owner constructor fields) gpu)
  | arm {ty source : Term} {parameter : Binder Term} {owner constructor : String}
    {fields : List (Binder Term)} {arm fallback : Expression} {gpu : Bool}
    (h : Occurs name mark arm) :
    Occurs name mark (.mk ty source (.Match parameter owner constructor fields arm fallback) gpu)
  | fallback {ty source : Term} {parameter : Binder Term} {owner constructor : String}
    {fields : List (Binder Term)} {arm fallback : Expression} {gpu : Bool}
    (h : Occurs name mark fallback) :
    Occurs name mark (.mk ty source (.Match parameter owner constructor fields arm fallback) gpu)
  | binding {ty source : Term} {bindings : List (Field Expression)} {field : Field Expression}
    {body : Expression} {gpu : Bool} (hfield : field ∈ bindings)
    (hquant : field.binder.quant ≠ .None) (h : Occurs name mark field.value) :
    Occurs name mark (.mk ty source (.Let bindings body) gpu)
  | inner {ty source : Term} {bindings : List (Field Expression)} {body : Expression} {gpu : Bool}
    (h : Occurs name mark body) : Occurs name mark (.mk ty source (.Let bindings body) gpu)

/-- What is added to the marks and to the references. -/
structure Adds (P : String → Bool → Prop) (found found' : Found) : Prop where
  marks : ∀ name, name ∈ found'.marks ↔ name ∈ found.marks ∨ P name true
  references : ∀ name, name ∈ found'.references ↔ name ∈ found.references ∨ ∃ mark, P name mark

namespace Adds

variable {P Q : String → Bool → Prop} {found found' found'' : Found}

theorem nothing (h : ∀ name mark, ¬P name mark) : Adds P found found where
  marks name := by simp [h name]
  references name := by simp [h name]

theorem trans (h : Adds P found found') (h' : Adds Q found' found'') :
    Adds (fun name mark => P name mark ∨ Q name mark) found found'' where
  marks name := by rw [h'.marks, h.marks, or_assoc]
  references name := by rw [h'.references, h.references, or_assoc, exists_or]

theorem congr (h : Adds P found found') (hiff : ∀ name mark, P name mark ↔ Q name mark) :
    Adds Q found found' where
  marks name := by rw [h.marks, hiff]
  references name := by
    rw [h.references]
    exact or_congr_right (exists_congr fun mark => hiff name mark)

end Adds

/-- A name is referred to in one of the fields. -/
def OccursIn (fields : List (Field Expression)) (name : String) (mark : Bool) : Prop :=
  ∃ field ∈ fields, field.binder.quant ≠ .None ∧ Occurs name mark field.value

/-- The references of fields are those of their values. -/
theorem fieldReferences_adds {fields : List (Field Expression)}
    (h : ∀ field ∈ fields, ∀ found,
      Adds (Occurs · · field.value) found (expressionReferences field.value found))
    (found : Found) : Adds (OccursIn fields) found (fieldReferences fields found) := by
  induction fields generalizing found with
  | nil =>
    refine .nothing fun name mark h => ?_
    obtain ⟨_, hfield, -⟩ := h
    exact List.not_mem_nil hfield
  | cons field fields ih =>
    obtain ⟨binder, value⟩ := field
    have hrest := ih fun field hfield => h field (List.mem_cons_of_mem _ hfield)
    rw [fieldReferences]
    split
    · next hquant =>
      refine ((h _ List.mem_cons_self found).trans (hrest _)).congr fun name mark => ?_
      simp [OccursIn, hquant]
    · next hquant =>
      refine (hrest found).congr fun name mark => ?_
      simp [OccursIn, not_not.1 hquant]

/-- **What an expression refers to is found, and nothing else.** -/
theorem expressionReferences_adds (e : Expression) (found : Found) :
    Adds (Occurs · · e) found (expressionReferences e found) := by
  induction e using Expression.induct generalizing found with
  | Erased | Variable | Absurd =>
    refine .nothing fun name mark h => ?_
    cases h
  | Definition ty source name gpu =>
    have hiff (other : String) (mark : Bool) :
        Occurs other mark (.mk ty source (.Definition name) gpu) ↔ other = name ∧ mark = gpu := by
      refine ⟨fun h => ?_, ?_⟩
      · cases h
        exact ⟨rfl, rfl⟩
      · rintro ⟨rfl, rfl⟩
        exact .definition
    refine ⟨fun other => ?_, fun other => ?_⟩
    · rw [hiff, expressionReferences]
      cases gpu <;> simp [or_comm]
    · simp [hiff, expressionReferences, or_comm]
  | Lambda ty source parameter body gpu ih =>
    refine (ih found).congr fun name mark => ⟨.body, fun h => ?_⟩
    cases h
    assumption
  | Apply ty source function argument quant gpu ihf iha =>
    rw [expressionReferences]
    split
    · next hquant =>
      refine ((ihf found).trans (iha _)).congr fun name mark =>
        ⟨fun h => h.elim .function (.argument hquant), fun h => ?_⟩
      cases h with
      | function h => exact .inl h
      | argument _ h => exact .inr h
    · next hquant =>
      refine (ihf found).congr fun name mark => ⟨.function, fun h => ?_⟩
      cases h with
      | function h => exact h
      | argument h _ => exact absurd h hquant
  | Constructor ty source owner name fields gpu ih =>
    refine (fieldReferences_adds ih found).congr fun name mark => ⟨?_, fun h => ?_⟩
    · rintro ⟨field, hfield, hquant, h⟩
      exact .field hfield hquant h
    · cases h with
      | field hfield hquant h => exact ⟨_, hfield, hquant, h⟩
  | Match ty source parameter owner constructor fields arm fallback gpu iha ihf =>
    refine ((iha found).trans (ihf _)).congr fun name mark =>
      ⟨fun h => h.elim .arm .fallback, fun h => ?_⟩
    cases h with
    | arm h => exact .inl h
    | fallback h => exact .inr h
  | Let ty source bindings body gpu ihs ih =>
    refine ((fieldReferences_adds ihs found).trans (ih _)).congr fun name mark =>
      ⟨?_, fun h => ?_⟩
    · rintro (⟨field, hfield, hquant, h⟩ | h)
      · exact .binding hfield hquant h
      · exact .inner h
    · cases h with
      | binding hfield hquant h => exact .inl ⟨_, hfield, hquant, h⟩
      | inner h => exact .inr h

/-! ## 3. The walk -/

section Walk

variable {definitions : List (String × Definition)} {marks seen : Finset String}
  {queue : List String}

/-- The body of a definition refers to a name. -/
def Refers (definitions : List (String × Definition)) (caller : String) (mark : Bool)
    (name : String) : Prop :=
  ∃ body, ordinaryBody definitions caller = some body ∧ Occurs name mark body

/-- A name may be come to from a definition. -/
def Calls (definitions : List (String × Definition)) (caller name : String) : Prop :=
  ∃ mark, Refers definitions caller mark name

/-- Where the walk stands. -/
structure Walk (definitions : List (String × Definition)) (marks seen : Finset String)
    (queue : List String) : Prop where
  search : Search (Calls definitions) (· = "main") (· ∈ seen) (· ∈ queue)
  marks : ∀ name, name ∈ marks ↔ ∃ caller ∈ seen, Refers definitions caller true name

theorem Walk.begin : Walk definitions ∅ ∅ ["main"] where
  search := .begin (fun _ => Finset.notMem_empty _) fun _ => List.mem_singleton
  marks name := by simp

/-- A name is looked at for the first time. -/
theorem Walk.look {name : String} {marks' : Finset String} {queue' : List String}
    (h : Walk definitions marks seen (name :: queue))
    (hmarks : ∀ other, other ∈ marks' ↔ other ∈ marks ∨ Refers definitions name true other)
    (hqueue : ∀ other, other ∈ queue' ↔ other ∈ queue ∨ Calls definitions name other) :
    Walk definitions marks' (insert name seen) queue' where
  search := by
    refine h.search.look List.mem_cons_self (fun other => ?_) fun other => ?_
    · rw [Finset.mem_insert, or_comm]
    · rw [Finset.mem_insert, hqueue, List.mem_cons]
      tauto
  marks other := by
    rw [hmarks, h.marks]
    simp [or_comm]

/-- A name is marked when something reachable refers to it so. -/
theorem markedFrom_spec (h : Walk definitions marks seen queue) (name : String) :
    name ∈ markedFrom definitions marks seen queue ↔
      ∃ caller, Reaches (Calls definitions) (· = "main") caller ∧
        Refers definitions caller true name := by
  fun_induction markedFrom definitions marks seen queue with
  | case1 marks seen =>
    rw [h.marks]
    exact exists_congr fun caller =>
      and_congr_left fun _ => h.search.done_iff fun _ => List.not_mem_nil
  | case2 marks seen name queue hseen ih =>
    refine ih ⟨h.search.skip fun other => ?_, h.marks⟩
    rw [List.mem_cons]
    refine ⟨fun h => h.imp id .inr, ?_⟩
    rintro (h | rfl | h)
    exacts [.inl h, .inl hseen, .inr h]
  | case3 marks seen name queue hseen hbody ih =>
    have hnone (mark : Bool) (other : String) : ¬Refers definitions name mark other := by
      rintro ⟨body, hsome, -⟩
      rw [hbody] at hsome
      cases hsome
    refine ih (h.look (fun other => ?_) fun other => ?_)
    · simp [hnone]
    · simp [Calls, hnone]
  | case4 marks seen name queue hseen body hbody ih =>
    have hrefers (mark : Bool) (other : String) :
        Refers definitions name mark other ↔ Occurs other mark body := by
      simp [Refers, hbody]
    have hadds := expressionReferences_adds body ⟨marks, queue⟩
    refine ih (h.look (fun other => ?_) fun other => ?_)
    · rw [hadds.marks, hrefers]
    · rw [hadds.references]
      simp [Calls, hrefers]

end Walk

/-- **The marked names are those that are marked where `main` may come to.** -/
theorem markedNames_exact (definitions : List (String × Definition)) (name : String) :
    name ∈ markedNames definitions ↔
      ∃ caller, Reaches (Calls definitions) (· = "main") caller ∧
        Refers definitions caller true name :=
  markedFrom_spec .begin name

end TeamyBend.Compiler.Gpu
