/-
# What a program sends to the device

`gpu_source` collects the functions that the marked ones may come to: those that their code names,
and all functions where a closure may be called that the code does not name.  Functions that call
the host are taken out at the end.

The functions that are left are those that are reachable from the marked ones and call no host, and
the only error is a reachable function that does not exist (`deviceSegments_exact`).
-/
import TeamyBend.Compiler.GpuMarks
import TeamyBend.Compiler.Layout

namespace TeamyBend.Compiler.Gpu

open Layouts (Kind Layout)
open Library (Reaches Search)

/-! ## 1. The source -/

/-- `struct BodyDependencies`, without the conversions. -/
structure BodyDependencies where
  fids : List Nat
  hostOperations : List String
  dynamicCalls : Bool

/-- `struct Closure`: the definition that its code is of, and what the code depends on. -/
structure Closure where
  origin : Option String
  dependencies : BodyDependencies

/-- `struct Signature`, without the result. -/
structure Signature where
  id : Nat
  arguments : List Layout

/-- What `gpu_source` reads of `struct Generator`; `signatures` are the values of `segment_ids`. -/
structure Generator where
  closures : List Closure
  signatures : List Signature
  gpuNames : Finset String

/-- `queue.extend(ids)`; the queue is taken from its end, which is first here. -/
def extend (ids queue : List Nat) : List Nat := ids.reverse ++ queue

@[simp] theorem mem_extend {ids queue : List Nat} {id : Nat} :
    id ∈ extend ids queue ↔ id ∈ ids ∨ id ∈ queue := by
  simp [extend]

namespace Generator

variable (g : Generator)

/-- `Generator::gpu_segment`. -/
def gpuSegment (id : Nat) : Bool :=
  match g.closures[id]? with
  | some ⟨some name, _⟩ => decide (name ∈ g.gpuNames)
  | _ => false

/-- `Generator::gpu_roots`, in ascending order. -/
def gpuRoots : List Nat :=
  (((g.signatures.filter fun signature => g.gpuSegment signature.id).map (·.id)).dedup).mergeSort

/-- A marked function takes a value that may hold a closure. -/
def wideRoots : Bool :=
  g.signatures.any fun signature => decide (signature.id ∈ g.gpuRoots) &&
    signature.arguments.any fun layout => decide (Kind.Box ∈ layout.words)

/-- `queue.extend(0..self.closures.len())` -/
def extendAll (queue : List Nat) : List Nat := extend (List.range g.closures.length) queue

/-- The loop of `gpu_source`. -/
def reachableFrom (wide : Bool) (reachable : Finset Nat) :
    List Nat → Except String (Finset Nat)
  | [] => .ok reachable
  | id :: queue =>
    if id ∈ reachable then reachableFrom wide reachable queue
    else
      match _hclosure : g.closures[id]? with
      | none => .error "invalid CUDA function dependency"
      | some closure =>
        if closure.dependencies.dynamicCalls && !wide then
          reachableFrom true (insert id reachable)
            (g.extendAll (extend closure.dependencies.fids queue))
        else reachableFrom wide (insert id reachable) (extend closure.dependencies.fids queue)
termination_by queue => ((Finset.range g.closures.length \ reachable).card, queue.length)
decreasing_by
  · exact lex_of_le (Nat.le_refl _) (Nat.lt_succ_self _)
  · have hlt := (List.getElem?_eq_some_iff.1 _hclosure).1
    exact .left _ _ (unseen_lt (Finset.mem_range.2 hlt) ‹id ∉ reachable›)
  · have hlt := (List.getElem?_eq_some_iff.1 _hclosure).1
    exact .left _ _ (unseen_lt (Finset.mem_range.2 hlt) ‹id ∉ reachable›)

/-- The code of a function calls no host. -/
def hostFree (id : Nat) : Bool :=
  g.closures[id]?.any fun closure => closure.dependencies.hostOperations.isEmpty

/-- The functions of `gpu_source`, if there are any. -/
def deviceSegments : Except String (Option (Finset Nat)) :=
  if g.gpuRoots = [] then .ok none
  else
    match g.reachableFrom g.wideRoots ∅
        (if g.wideRoots then g.extendAll (extend g.gpuRoots []) else extend g.gpuRoots []) with
    | .error message => .error message
    | .ok reachable => .ok (some (reachable.filter (g.hostFree ·)))

/-! ## 2. The walk -/

/-- A function may come to another one. -/
def Edge (x y : Nat) : Prop :=
  ∃ closure, g.closures[x]? = some closure ∧ (y ∈ closure.dependencies.fids ∨
    closure.dependencies.dynamicCalls = true ∧ y < g.closures.length)

/-- Where the walk starts. -/
def Start (id : Nat) : Prop := id ∈ g.gpuRoots ∨ g.wideRoots = true ∧ id < g.closures.length

variable {g} {wide : Bool} {reachable : Finset Nat} {queue : List Nat} {start : Nat → Prop}

@[simp] theorem mem_extendAll {id : Nat} :
    id ∈ g.extendAll queue ↔ id < g.closures.length ∨ id ∈ queue := by
  simp [extendAll]

/-- Where the walk stands. -/
structure Spread (g : Generator) (start : Nat → Prop) (wide : Bool) (reachable : Finset Nat)
    (queue : List Nat) : Prop where
  search : Search g.Edge start (· ∈ reachable) (· ∈ queue)
  wide : wide = true → ∀ id < g.closures.length, id ∈ reachable ∨ id ∈ queue
  inside : ∀ id ∈ reachable, id < g.closures.length

/-- A function is looked at for the first time. -/
theorem Spread.look {id : Nat} {wide' : Bool} {queue' : List Nat} {closure : Closure}
    (h : Spread g start wide reachable (id :: queue)) (hclosure : g.closures[id]? = some closure)
    (hqueue : ∀ other, other ∈ queue' ↔ other ∈ queue ∨ other ∈ closure.dependencies.fids ∨
      (closure.dependencies.dynamicCalls = true ∧ wide = false) ∧ other < g.closures.length)
    (hwide : wide' = true ↔ wide = true ∨ closure.dependencies.dynamicCalls = true) :
    Spread g start wide' (insert id reachable) queue' := by
  have hedge (other : Nat) : g.Edge id other ↔ other ∈ closure.dependencies.fids ∨
      closure.dependencies.dynamicCalls = true ∧ other < g.closures.length := by
    simp [Edge, hclosure]
  -- What was pushed when the walk became wide is still known.
  have hknown (other : Nat) (hw : wide = true) (hlt : other < g.closures.length) :
      other ∈ reachable ∨ other = id ∨ other ∈ queue := by
    simpa using h.wide hw other hlt
  refine ⟨h.search.look List.mem_cons_self (fun other => ?_) fun other => ?_,
    fun hw other hlt => ?_, fun other hother => ?_⟩
  · rw [Finset.mem_insert, or_comm]
  · rw [Finset.mem_insert, hqueue, List.mem_cons, hedge]
    have := hknown other
    cases wide <;> simp only [Bool.true_eq_false, and_false, false_and, and_true] <;> grind
  · rw [Finset.mem_insert, hqueue]
    rcases (hwide.1 hw) with hw | hdynamic
    · have := hknown other hw hlt
      tauto
    · cases hcase : wide with
      | true =>
        have := hknown other hcase hlt
        tauto
      | false => exact .inr (.inr (.inr ⟨⟨hdynamic, rfl⟩, hlt⟩))
  · rcases Finset.mem_insert.1 hother with rfl | hother
    · exact (List.getElem?_eq_some_iff.1 hclosure).1
    · exact h.inside other hother

/-- What the walk answers. -/
structure Answers (g : Generator) (start : Nat → Prop) (r : Except String (Finset Nat)) : Prop where
  found : ∀ reachable, r = .ok reachable → ∀ id, id ∈ reachable ↔ Reaches g.Edge start id
  ok : (∃ reachable, r = .ok reachable) ↔ ∀ id, Reaches g.Edge start id → id < g.closures.length

theorem reachableFrom_answers (h : Spread g start wide reachable queue) :
    Answers g start (g.reachableFrom wide reachable queue) := by
  fun_induction g.reachableFrom wide reachable queue with
  | case1 wide reachable =>
    have hdone (id : Nat) : id ∈ reachable ↔ Reaches g.Edge start id :=
      h.search.done_iff fun _ => List.not_mem_nil
    refine ⟨?_, fun _ id hid => h.inside id ((hdone id).2 hid), fun _ => ⟨_, rfl⟩⟩
    rintro _ ⟨⟩
    exact hdone
  | case2 wide reachable id queue hseen ih =>
    refine ih ⟨h.search.skip fun other => ?_, fun hw other hlt => ?_, h.inside⟩
    · rw [List.mem_cons]
      refine ⟨fun h => h.imp (fun h => h) .inr, ?_⟩
      rintro (h | rfl | h)
      exacts [.inl h, .inl hseen, .inr h]
    · rcases h.wide hw other hlt with h | h
      · exact .inl h
      · rcases List.mem_cons.1 h with rfl | h
        exacts [.inl hseen, .inr h]
  | case3 wide reachable id queue hseen hnone =>
    refine ⟨fun _ h => (by cases h), fun h => ?_, fun hall => ?_⟩
    · obtain ⟨_, h⟩ := h
      cases h
    have hlt := hall id (h.search.sound id (.inr List.mem_cons_self))
    exact absurd (List.getElem?_eq_none_iff.1 hnone) (Nat.not_le.2 hlt)
  | case4 wide reachable id queue hseen closure hclosure hwide ih =>
    rw [Bool.and_eq_true, Bool.not_eq_true'] at hwide
    refine ih (h.look hclosure (fun other => ?_) (by simp [hwide.1]))
    simp [hwide.1, hwide.2]
    grind
  | case5 wide reachable id queue hseen closure hclosure hwide ih =>
    rw [Bool.and_eq_true, Bool.not_eq_true'] at hwide
    refine ih (h.look hclosure (fun other => ?_) ?_)
    · simp [hwide, or_comm]
    · cases wide
      · simpa using hwide
      · simp

end Generator

/-- **What is sent to the device is what the marked functions may come to without the host.** -/
theorem deviceSegments_exact (g : Generator) :
    (∀ segments, g.deviceSegments = .ok (some segments) → ∀ id, id ∈ segments ↔
      Reaches g.Edge g.Start id ∧ g.hostFree id = true) ∧
    ((∃ r, g.deviceSegments = .ok r) ↔
      g.gpuRoots = [] ∨ ∀ id, Reaches g.Edge g.Start id → id < g.closures.length) := by
  have hspread : g.Spread g.Start g.wideRoots ∅
      (if g.wideRoots then g.extendAll (extend g.gpuRoots []) else extend g.gpuRoots []) := by
    refine ⟨.begin (fun _ => Finset.notMem_empty _) fun id => ?_, fun hw id hlt => ?_, ?_⟩
    · cases hw : g.wideRoots <;> simp [Generator.Start, hw, or_comm]
    · rw [if_pos hw]
      exact .inr (Generator.mem_extendAll.2 (.inl hlt))
    · exact fun id hid => absurd hid (Finset.notMem_empty id)
  have hanswers := Generator.reachableFrom_answers hspread
  unfold Generator.deviceSegments
  split
  · next hroots =>
    refine ⟨fun _ h => ?_, fun _ => .inl hroots, fun _ => ⟨_, rfl⟩⟩
    cases h
  · next hroots =>
    split
    · next message hr =>
      refine ⟨fun _ h => (by cases h), fun h => ?_, fun h => ?_⟩
      · obtain ⟨_, h⟩ := h
        cases h
      obtain ⟨reachable, hok⟩ := hanswers.ok.2 (h.resolve_left hroots)
      rw [hr] at hok
      cases hok
    · next reachable hr =>
      refine ⟨?_, fun _ => .inr (hanswers.ok.1 ⟨_, hr⟩), fun _ => ⟨_, rfl⟩⟩
      rintro _ ⟨⟩ id
      rw [Finset.mem_filter, hanswers.found reachable hr]

end TeamyBend.Compiler.Gpu
