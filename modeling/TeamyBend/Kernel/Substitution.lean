/-
# Substitution with explicit frames

`substitute` in the source does not recurse.  It keeps a stack of tasks and a stack of results:
visiting a node schedules its children above a frame that builds the node again, and the build
frame pops as many results as the visit scheduled.  Both stacks are lists here, the top first, and
a pop from an empty stack stops the run without a result, as `unwrap` stops the program.

The run of one visit is the recursive `substitute`, whatever lies below it on the two stacks.  The
recursion is then read as the capture-avoiding substitution of nameless terms.
-/
import TeamyBend.Kernel.Nameless
import TeamyBend.Kernel.Engine

namespace TeamyBend.Kernel

/-! ## 1. The traversal -/

/-- `enum Task`. -/
inductive Task where
  | Visit (node : Term)
  | Build (node : Term)

/-- `results.split_off(results.len() - count)`: the results above, in the order of the vector, and
the results below. -/
def splitOff (count : Nat) (results : List Term) : Option (List Term × List Term) :=
  if count ≤ results.length then some ((results.take count).reverse, results.drop count) else none

/-- `results.pop().unwrap()`. -/
def popResult : List Term → Option (Term × List Term)
  | [] => none
  | top :: results => some (top, results)

/-- What a visit without children pushes. -/
def leaf (target : Nat) (replacement : Term) : Term → Option Term
  | .Var name id => some (if id = target then replacement else .Var name id)
  | .Ref name => some (.Ref name)
  | .GpuRef name => some (.GpuRef name)
  | .Qnt => some .Qnt
  | .Qua q => some (.Qua q)
  | .Efq => some .Efq
  | .Rfl => some .Rfl
  | .Hole name => some (.Hole name)
  | .Lam name id body => if id = target then some (.Lam name id body) else none
  | _ => none

/-- The children a visit schedules, the next one to be visited first. -/
def children (target : Nat) : Term → List Term
  | .Typ a => [a]
  | .Lam _ _ a => [a]
  | .Min a b => [a, b]
  | .App a b => [a, b]
  | .Ann a b => [a, b]
  | .All _ _ id domain body => domain :: if id ≠ target then [body] else []
  | .Adt _ args _ => args
  | .Ctr _ args => args
  | .Mat _ arm fallback => [arm, fallback]
  | .Eql left right ty => [left, right, ty]
  | .Rwt evidence motive body => [evidence, motive, body]
  | .Let bindings body =>
    bindings.map (·.value) ++ if ¬bindings.any (·.id = target) then [body] else []
  | _ => []

/-- The arm of `Task::Build`, with the answers of `Rc::ptr_eq`. -/
def build (target : Nat) (same : Term → Term → Bool) (node : Term) (results : List Term) :
    Option (Term × List Term) :=
  match node with
  | .Typ _ => do
    let (a, results) ← popResult results
    return (.Typ a, results)
  | .Min _ _ => do
    let (b, results) ← popResult results
    let (a, results) ← popResult results
    return (.Min a b, results)
  | .All quant name id _ body => do
    let (b, results) ← if id = target then some (body, results) else popResult results
    let (a, results) ← popResult results
    return (.All quant name id a b, results)
  | .Lam name id _ => do
    let (body, results) ← popResult results
    return (.Lam name id body, results)
  | .App a b => do
    let (y, results) ← popResult results
    let (x, results) ← popResult results
    return (if same a x && same b y then node else .App x y, results)
  | .Adt name args excluded => do
    let (out, results) ← splitOff args.length results
    return (.Adt name out excluded, results)
  | .Ctr name args => do
    let (out, results) ← splitOff args.length results
    return (if (args.zip out).all (fun p => same p.1 p.2) then node else .Ctr name out, results)
  | .Mat constructor _ _ => do
    let (fallback, results) ← popResult results
    let (arm, results) ← popResult results
    return (.Mat constructor arm fallback, results)
  | .Eql _ _ _ => do
    let (ty, results) ← popResult results
    let (right, results) ← popResult results
    let (left, results) ← popResult results
    return (.Eql left right ty, results)
  | .Rwt _ _ _ => do
    let (body, results) ← popResult results
    let (motive, results) ← popResult results
    let (evidence, results) ← popResult results
    return (.Rwt evidence motive body, results)
  | .Ann _ _ => do
    let (ty, results) ← popResult results
    let (value, results) ← popResult results
    return (.Ann value ty, results)
  | .Let bindings body => do
    let (body, results) ←
      if bindings.any (·.id = target) then some (body, results) else popResult results
    let (mapped, results) ← splitOff bindings.length results
    return (.Let ((bindings.zip mapped).map fun p => { p.1 with value := p.2 }) body, results)
  | _ => none

/-- One turn of the loop on its two stacks. -/
def turn (target : Nat) (replacement : Term) (same : Term → Term → Bool) (task : Task)
    (tasks : List Task) (results : List Term) : Option (List Task × List Term) :=
  match task with
  | .Visit node =>
    match leaf target replacement node with
    | some result => some (tasks, result :: results)
    | none => some ((children target node).map .Visit ++ .Build node :: tasks, results)
  | .Build node => do
    let (next, results) ← build target same node results
    return (tasks, next :: results)

/-- `while let Some(task) = tasks.pop()`, for a number of turns.  `Rc::ptr_eq` answers at every
turn for itself. -/
def turns (p : Pointers) (target : Nat) (replacement : Term) :
    Nat → List Task → List Term → Option (List Term)
  | _, [], results => some results
  | 0, _ :: _, _ => none
  | fuel + 1, task :: tasks, results => do
    let (tasks, results) ← turn target replacement (p.same fuel) task tasks results
    turns p target replacement fuel tasks results

/-- `substitute` as the source runs it, for a number of turns: the assertion on the results and
the last pop are its two last lines. -/
def substituteLoop (p : Pointers) (fuel : Nat) (root : Term) (target : Nat) (replacement : Term) :
    Option Term := do
  let results ← turns p target replacement fuel [.Visit root] []
  if results.length = 1 then (popResult results).map (·.1) else none

/-! ## 2. One visit -/

section Visits

variable {p : Pointers} {target : Nat} {replacement : Term}

/-- From the first two stacks the loop comes to the second two, however long it may still run. -/
def LoopsTo (p : Pointers) (target : Nat) (replacement : Term) (tasks : List Task)
    (results : List Term) (tasks' : List Task) (results' : List Term) : Prop :=
  ∃ k, ∀ n, turns p target replacement (k + n) tasks results =
    turns p target replacement n tasks' results'

theorem LoopsTo.refl (tasks : List Task) (results : List Term) :
    LoopsTo p target replacement tasks results tasks results :=
  ⟨0, fun n => by rw [Nat.zero_add]⟩

theorem LoopsTo.trans {tasks tasks₁ tasks₂ : List Task} {results results₁ results₂ : List Term}
    (h : LoopsTo p target replacement tasks results tasks₁ results₁)
    (h' : LoopsTo p target replacement tasks₁ results₁ tasks₂ results₂) :
    LoopsTo p target replacement tasks results tasks₂ results₂ := by
  obtain ⟨k, hk⟩ := h
  obtain ⟨k', hk'⟩ := h'
  exact ⟨k + k', fun n => by rw [Nat.add_assoc, hk, hk']⟩

/-- One turn that succeeds. -/
theorem LoopsTo.turn {task : Task} {tasks tasks' : List Task} {results results' : List Term}
    (h : ∀ same : Term → Term → Bool, (∀ a b, same a b = true → a = b) →
      turn target replacement same task tasks results = some (tasks', results')) :
    LoopsTo p target replacement (task :: tasks) results tasks' results' := by
  refine ⟨1, fun n => ?_⟩
  rw [Nat.add_comm, turns, h (p.same n) (p.sound n)]
  rfl

/-- The visit of a term leaves its substitution on the results and nothing else changed. -/
def Visited (p : Pointers) (target : Nat) (replacement : Term) (t : Term) : Prop :=
  ∀ tasks results, LoopsTo p target replacement (.Visit t :: tasks) results tasks
    (substitute target replacement t :: results)

theorem Visited.leaf {t : Term}
    (h : leaf target replacement t = some (substitute target replacement t)) :
    Visited p target replacement t := by
  intro tasks results
  refine LoopsTo.turn fun same _ => ?_
  simp only [Kernel.turn, h]

/-- Scheduled children come out in the order of the vector. -/
theorem reaches_children {cs : List Term} (hcs : ∀ c ∈ cs, Visited p target replacement c)
    (tasks : List Task) (results : List Term) :
    LoopsTo p target replacement (cs.map .Visit ++ tasks) results tasks
      ((cs.map (substitute target replacement)).reverse ++ results) := by
  induction cs generalizing results with
  | nil => exact .refl _ _
  | cons c cs ih =>
    have hrest := ih (fun d hd => hcs d (List.mem_cons_of_mem _ hd))
      (substitute target replacement c :: results)
    simpa using (hcs c (List.mem_cons_self ..) _ _).trans hrest

/-- A node is built from what the visits of its children left. -/
theorem Visited.node {t : Term} (hleaf : Kernel.leaf target replacement t = none)
    (hcs : ∀ c ∈ children target t, Visited p target replacement c)
    (hbuild : ∀ same : Term → Term → Bool, (∀ a b, same a b = true → a = b) → ∀ results,
      build target same t
          (((children target t).map (substitute target replacement)).reverse ++ results) =
        some (substitute target replacement t, results)) :
    Visited p target replacement t := by
  intro tasks results
  have hvisit : LoopsTo p target replacement (.Visit t :: tasks) results
      ((children target t).map .Visit ++ .Build t :: tasks) results :=
    LoopsTo.turn fun same _ => by simp only [Kernel.turn, hleaf]
  have hbuilt : LoopsTo p target replacement (.Build t :: tasks)
      (((children target t).map (substitute target replacement)).reverse ++ results) tasks
      (substitute target replacement t :: results) := by
    refine LoopsTo.turn fun same hsame => ?_
    simp only [Kernel.turn, hbuild same hsame results]
    rfl
  exact (hvisit.trans (reaches_children hcs _ _)).trans hbuilt

theorem splitOff_reverse (out results : List Term) :
    splitOff out.length (out.reverse ++ results) = some (out, results) := by
  have htake : (out.reverse ++ results).take out.length = out.reverse :=
    List.take_left' (by simp)
  have hdrop : (out.reverse ++ results).drop out.length = results := List.drop_left' (by simp)
  simp [splitOff, htake, hdrop]

/-- Where every pointer is the one it was, the arguments are the ones they were. -/
theorem eq_of_same {same : Term → Term → Bool} (hsame : ∀ a b, same a b = true → a = b)
    {args out : List Term} (hlen : args.length = out.length)
    (h : (args.zip out).all (fun p => same p.1 p.2) = true) : args = out := by
  induction args generalizing out with
  | nil => exact (List.length_eq_zero_iff.mp hlen.symm).symm
  | cons a args ih =>
    cases out with
    | nil => simp at hlen
    | cons b out =>
      simp only [List.zip_cons_cons, List.all_cons, Bool.and_eq_true] at h
      rw [hsame a b h.1, ih (by simpa using hlen) h.2]

theorem zip_values (bindings : List (LetBinding Term)) (f : Term → Term) :
    (bindings.zip (bindings.map fun b => f b.value)).map (fun p => { p.1 with value := p.2 }) =
      bindings.map fun b => { b with value := f b.value } := by
  induction bindings with
  | nil => rfl
  | cons b bindings ih => simpa using ih

/-- **Every visit leaves the substitution.**  One case a constructor: the children are visited by
hypothesis, and the build frame takes their results in turn. -/
theorem visited (t : Term) : Visited p target replacement t := by
  induction t with
  | Var name id =>
    refine .leaf ?_
    simp [leaf, substitute]
  | Ref | GpuRef | Qnt | Qua | Efq | Rfl | Hole => exact .leaf rfl
  | Typ a ih => exact .node rfl (by simpa [children] using ih) fun _ _ _ => rfl
  | Min a b iha ihb =>
    exact .node rfl (by simpa [children] using ⟨iha, ihb⟩) fun _ _ _ => rfl
  | All quant name id domain body ihd ihb =>
    refine .node rfl ?_ fun same _ results => ?_
    · by_cases hid : id = target
      · simpa [children, hid] using ihd
      · simpa [children, hid] using ⟨ihd, ihb⟩
    · by_cases hid : id = target
      · simp [children, build, substitute, popResult, hid]
      · simp [children, build, substitute, popResult, hid]
  | Lam name id body ih =>
    by_cases hid : id = target
    · refine .leaf ?_
      simp [leaf, substitute, hid]
    · refine .node (by simp [leaf, hid]) (by simpa [children] using ih) fun _ _ _ => ?_
      simp [children, build, substitute, popResult, hid]
  | App a b iha ihb =>
    refine .node rfl (by simpa [children] using ⟨iha, ihb⟩) fun same hsame results => ?_
    simpa [children, build, substitute, popResult] using
      fun ha hb => ⟨hsame _ _ ha, hsame _ _ hb⟩
  | Adt name args excluded ih =>
    refine .node rfl (by simpa [children] using ih) fun same _ results => ?_
    have hsplit := splitOff_reverse (args.map (substitute target replacement)) results
    rw [List.length_map] at hsplit
    simp [children, build, substitute, hsplit]
  | Ctr name args ih =>
    refine .node rfl (by simpa [children] using ih) fun same hsame results => ?_
    have hsplit := splitOff_reverse (args.map (substitute target replacement)) results
    rw [List.length_map] at hsplit
    have hshared : (args.zip (args.map (substitute target replacement))).all
        (fun p => same p.1 p.2) = true → args = args.map (substitute target replacement) :=
      eq_of_same hsame (by simp)
    have hnode : (if (args.zip (args.map (substitute target replacement))).all
        (fun p => same p.1 p.2) then Term.Ctr name args
        else .Ctr name (args.map (substitute target replacement))) =
        .Ctr name (args.map (substitute target replacement)) := by
      split
      · exact congrArg (Term.Ctr name) (hshared ‹_›)
      · rfl
    calc build target same (.Ctr name args)
          ((args.map (substitute target replacement)).reverse ++ results)
        = some (if (args.zip (args.map (substitute target replacement))).all
            (fun p => same p.1 p.2) then Term.Ctr name args
            else .Ctr name (args.map (substitute target replacement)), results) := by
          simp only [build, hsplit, Option.bind_eq_bind, Option.bind_some, Option.pure_def]
      _ = some (substitute target replacement (.Ctr name args), results) := by
          rw [hnode, substitute, substituteArgs_eq]
  | Mat constructor arm fallback iha ihf =>
    exact .node rfl (by simpa [children] using ⟨iha, ihf⟩) fun _ _ _ => rfl
  | Eql left right ty ihl ihr iht =>
    exact .node rfl (by simpa [children] using ⟨ihl, ihr, iht⟩) fun _ _ _ => rfl
  | Rwt evidence motive body ihe ihm ihb =>
    exact .node rfl (by simpa [children] using ⟨ihe, ihm, ihb⟩) fun _ _ _ => rfl
  | Ann value ty ihv iht =>
    exact .node rfl (by simpa [children] using ⟨ihv, iht⟩) fun _ _ _ => rfl
  | Let bindings body ihs ihb =>
    have hsplit := splitOff_reverse (bindings.map fun b => substitute target replacement b.value)
    rw [List.length_map] at hsplit
    have hvalues : ∀ c ∈ bindings.map (·.value), Visited p target replacement c := by
      intro c hc
      obtain ⟨b, hb, rfl⟩ := List.mem_map.mp hc
      exact ihs b hb
    refine .node rfl (fun c hc => ?_) fun same _ results => ?_
    · simp only [children, List.mem_append] at hc
      rcases hc with hc | hc
      · exact hvalues c hc
      · split at hc
        · rw [List.mem_singleton.mp hc]
          exact ihb
        · cases hc
    · by_cases hany : bindings.any (·.id = target)
      · simp [children, build, substitute, hany, hsplit, zip_values, Function.comp_def]
      · simp [children, build, substitute, popResult, hany, hsplit, zip_values,
          Function.comp_def]

end Visits

/-! ## 3. Substitution without names -/

namespace Nameless

mutual

/-- Put `v` for the free variable `x`.  No binder has a name that could capture a variable of `v`,
and a `v` without loose bound variables needs no shift on the way in. -/
def replace (x : Nat) (v : Nameless) : Nameless → Nameless
  | .free id => if id = x then v else .free id
  | .Typ g => .Typ (replace x v g)
  | .Min a b => .Min (replace x v a) (replace x v b)
  | .All quant domain body => .All quant (replace x v domain) (replace x v body)
  | .Lam body => .Lam (replace x v body)
  | .App f a => .App (replace x v f) (replace x v a)
  | .Adt name args excluded => .Adt name (replaceArgs x v args) excluded
  | .Ctr name args => .Ctr name (replaceArgs x v args)
  | .Mat constructor arm fallback => .Mat constructor (replace x v arm) (replace x v fallback)
  | .Eql left right ty => .Eql (replace x v left) (replace x v right) (replace x v ty)
  | .Rwt evidence motive body =>
    .Rwt (replace x v evidence) (replace x v motive) (replace x v body)
  | .Ann value ty => .Ann (replace x v value) (replace x v ty)
  | .Let quants values body => .Let quants (replaceArgs x v values) (replace x v body)
  | t => t

/-- `replace` on a list. -/
def replaceArgs (x : Nat) (v : Nameless) : List Nameless → List Nameless
  | [] => []
  | a :: args => replace x v a :: replaceArgs x v args

end

attribute [local simp] replace replaceArgs

@[simp] theorem replaceArgs_eq (x : Nat) (v : Nameless) (args : List Nameless) :
    replaceArgs x v args = args.map (replace x v) := by
  induction args with
  | nil => rfl
  | cons a args ih => simp [replaceArgs, ih]

end Nameless

/-- `Nameless.replace` of what a variable became. -/
def Slot.replace (x : Nat) (v : Nameless) : Slot → Slot
  | bound i => bound i
  | term t => term (Nameless.replace x v t)

theorem Slot.toNameless_replace (x : Nat) (v : Nameless) (slot : Slot) :
    (slot.replace x v).toNameless = Nameless.replace x v slot.toNameless := by
  cases slot with
  | bound i => rfl
  | term t => rfl

theorem Slot.replace_shift (x : Nat) (v : Nameless) (slot : Slot) :
    slot.shift.replace x v = (slot.replace x v).shift := by
  cases slot with
  | bound i => rfl
  | term t => rfl

namespace Scope

/-- `Slot.replace` everywhere. -/
def replace (x : Nat) (v : Nameless) (s : Scope) : Scope := fun y => (s y).replace x v

theorem replace_push (x : Nat) (v : Nameless) (s : Scope) (id : Nat) :
    (s.push id).replace x v = (s.replace x v).push id := by
  funext y
  by_cases hy : y = id
  · rw [hy, push_self, replace, push_self]
    rfl
  · rw [push_of_ne _ hy, replace, push_of_ne _ hy]
    exact Slot.replace_shift x v (s y)

theorem replace_pushAll (x : Nat) (v : Nameless) (s : Scope) (ids : List Nat) :
    (s.pushAll ids).replace x v = (s.replace x v).pushAll ids := by
  induction ids with
  | nil => rfl
  | cons id ids ih => rw [pushAll, replace_push, ih, pushAll]

theorem replace_free (x : Nat) (v : Nameless) : free.replace x v = free.set x (.term v) := by
  funext y
  by_cases hy : y = x
  · simp [replace, free, Slot.replace, Nameless.replace, hy]
  · simp [replace, free, Slot.replace, Nameless.replace, hy, set_of_ne]

end Scope

/-- Replacing in the nameless term is reading the term in another scope. -/
theorem replace_strip {t : Term} (s : Scope) (x : Nat) (v : Nameless) :
    Nameless.replace x v (strip s t) = strip (s.replace x v) t := by
  induction t generalizing s with
  | Var name id => exact (Slot.toNameless_replace x v (s id)).symm
  | Ref | GpuRef | Qnt | Qua | Efq | Rfl | Hole => rfl
  | Typ g ih => simp [strip, Nameless.replace, ih]
  | Min a b iha ihb => simp [strip, Nameless.replace, iha, ihb]
  | All q name y d b ihd ihb => simp [strip, Nameless.replace, ihd, ihb, Scope.replace_push]
  | Lam name y b ihb => simp [strip, Nameless.replace, ihb, Scope.replace_push]
  | App f a ihf iha => simp [strip, Nameless.replace, ihf, iha]
  | Adt name args excluded ih =>
    have hargs := List.map_congr_left fun a ha => ih a ha s
    simpa [strip, Nameless.replace] using hargs
  | Ctr name args ih =>
    have hargs := List.map_congr_left fun a ha => ih a ha s
    simpa [strip, Nameless.replace] using hargs
  | Mat c a f iha ihf => simp [strip, Nameless.replace, iha, ihf]
  | Eql l r t ihl ihr iht => simp [strip, Nameless.replace, ihl, ihr, iht]
  | Rwt e m b ihe ihm ihb => simp [strip, Nameless.replace, ihe, ihm, ihb]
  | Ann a t iha iht => simp [strip, Nameless.replace, iha, iht]
  | Let bs t ihs iht =>
    have hvalues := List.map_congr_left fun b hb => ihs b hb s
    have ht := iht (s.pushAll (bs.map (·.id)))
    rw [Scope.replace_pushAll] at ht
    simpa [strip, Nameless.replace, ht] using hvalues

/-- `substitute` captures nothing where no binder of the term is free in the replacement. -/
theorem nameless_substitute_replace {target : Nat} {replacement root : Term}
    (h : ∀ id, BoundIn id root → ¬FreeIn id replacement) :
    nameless (substitute target replacement root) =
      Nameless.replace target (nameless replacement) (nameless root) := by
  have hbound : ∀ id, FreeIn id replacement → ¬BoundIn id root :=
    fun id hfree hid => h id hid hfree
  calc nameless (substitute target replacement root)
      = strip (Scope.free.set target (.term (nameless replacement))) root :=
        strip_substitute_free (fun _ _ => rfl) hbound
    _ = strip (Scope.free.replace target (nameless replacement)) root := by
        rw [Scope.replace_free]
    _ = Nameless.replace target (nameless replacement) (nameless root) :=
        (replace_strip Scope.free target (nameless replacement)).symm

/-! ## 4. The loop and the recursion -/

/-- **`substitute` is the recursion.**  From some number of turns on the loop has come to its end
with one result, never having popped from an empty stack, and the result is the recursive
substitution; it captures nothing where no binder of the term is free in the replacement. -/
theorem substituteLoop_eq (p : Pointers) (root : Term) (target : Nat) (replacement : Term) :
    (∃ k, ∀ fuel, k ≤ fuel → turns p target replacement fuel [.Visit root] [] =
        some [substitute target replacement root] ∧
      substituteLoop p fuel root target replacement =
        some (substitute target replacement root)) ∧
    ((∀ id, BoundIn id root → ¬FreeIn id replacement) →
      nameless (substitute target replacement root) =
        Nameless.replace target (nameless replacement) (nameless root)) := by
  refine ⟨?_, nameless_substitute_replace⟩
  have hvisited : Visited p target replacement root := visited root
  obtain ⟨k, hk⟩ := hvisited [] []
  have hturns : ∀ fuel, k ≤ fuel → turns p target replacement fuel [.Visit root] [] =
      some [substitute target replacement root] := by
    intro fuel hfuel
    have hrun := hk (fuel - k)
    rw [Nat.add_sub_cancel' hfuel] at hrun
    rw [hrun, turns]
  refine ⟨k, fun fuel hfuel => ⟨hturns fuel hfuel, ?_⟩⟩
  rw [substituteLoop, hturns fuel hfuel]
  rfl

/-- The capture-avoiding reading at `(λ1. 0)[0 := 2]`. -/
theorem substituteLoop_eq_lam :
    nameless (substitute 0 (.Var "y" 2) (.Lam "x" 1 (.Var "z" 0))) =
      Nameless.replace 0 (nameless (.Var "y" 2)) (nameless (.Lam "x" 1 (.Var "z" 0))) := by
  refine (substituteLoop_eq .distinct (.Lam "x" 1 (.Var "z" 0)) 0 (.Var "y" 2)).2 ?_
  intro id hbound hfree
  cases hbound with
  | lam => exact absurd (freeIn_var.mp hfree) (by decide)
  | lamBody hbound => exact not_boundIn_var hbound

end TeamyBend.Kernel
