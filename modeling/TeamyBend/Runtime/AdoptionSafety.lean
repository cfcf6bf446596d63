/-
# An adoption checks before it acts

Where a check of an adoption fails, the heap and the queue are as they were; otherwise the tasks
form a tree or a chain (`adopt_validates`).  What follows the checks makes no record.
-/
import TeamyBend.Runtime.AdoptionTree

namespace TeamyBend.Runtime.Tasks

open BlockHeap (Heap)
open Library (Finishes)

variable {u : Setting} {m₀ m m' m₁ m₂ : Machine} {h : Heap} {task : Nat} {record : Record}

/-! ## 1. The checks -/

/-- The tasks of an adoption are a chain or a tree. -/
def Adopted (u : Setting) (h : Heap) (task : Nat) : Adoption → Prop
  | .chain below last => AdoptedChain u h task (below ++ [last])
  | .tree records => AdoptedTree u h task records

theorem tbTaskRoot_spec (hm₀ : Checked u m₀ m) (hr : Recorded u m.heap record)
    (boundary : Option Nat) :
    Finishes (tbTaskRoot u record boundary) m
      (fun r m' => r = { record with boundary } ∧ m' = m ∧
        m.heap.cells (record.loc + record.arity) = termHole) (Refused u m₀) := by
  refine .get_bind ?_
  refine .bind (check_spec hm₀ _) fun tail s htail => ?_
  obtain ⟨htail, rfl⟩ := htail
  obtain rfl := Except.ok.inj (hr.tail.symm.trans htail)
  refine .ite (fun _ => refused_fail hm₀ _) fun hroot => ?_
  refine .ite (fun _ => refused_fail hm₀ _) fun _ => .pure ⟨rfl, rfl, ?_⟩
  exact not_not.1 (not_or.1 hroot).1

/-- A record that was made begins a tree. -/
theorem Entered.growing {boundary : Option Nat} (he : Entered u m m₁ record)
    (hhole : m₁.heap.cells (record.loc + record.arity) = termHole) :
    Growing u m₁ record.task [] [{ record with boundary }] where
  recorded r hr := by
    obtain rfl := List.mem_singleton.1 hr
    have := he.recorded
    rw [← he.checked.heap] at this
    exact ⟨this.tail, this.arity, this.width, this.index, this.remaining, this.bounded⟩
  distinct := by simp
  listed r hr := by
    obtain rfl := List.mem_singleton.1 hr
    exact he.present
  found r hr := by
    obtain rfl := List.mem_singleton.1 hr
    simp [Record.found, he.reserved]
  root := ⟨_, rfl, rfl, he.parent, hhole⟩
  below k r hr hk := by
    have := (List.getElem?_eq_some_iff.1 hr).1
    simp at this
    omega
  parented p r hr := by cases hr
  counted := by
    rw [he.tasks]
    simp
  limit := he.limit

/-- A ready record that was made begins a chain. -/
theorem Entered.climbing (he : Entered u m m₁ record) (hready : record.remaining = 0)
    (hok : tbTaskPayloadReady m₁.heap record.loc record.arity = .ok ()) :
    Climbing u m₁ record.task [] record where
  recorded r hr := by
    obtain rfl := List.mem_singleton.1 hr
    exact he.checked.heap ▸ he.recorded
  distinct := by simp
  listed r hr := by
    obtain rfl := List.mem_singleton.1 hr
    exact he.present
  first := ⟨record, rfl, rfl, hready⟩
  parent := he.parent
  above k r hr := by cases hr
  parented p r hr := by
    cases p with
    | zero =>
      obtain rfl := Option.some.inj hr
      exact .ready hready he.reserved hok
    | succ p => cases hr
  counted := by
    rw [he.tasks]
    simp
  limit := he.limit

/-- A chain that is found to its end; its last record gets the boundary. -/
theorem Climbing.adopted {below : List Record} {last : Record} {boundary : Option Nat}
    (hc : Climbing u m task below last)
    (hhole : m.heap.cells (last.loc + last.arity) = termHole) :
    AdoptedChain u m.heap task (below ++ [{ last with boundary }]) where
  recorded r hr := by
    rcases List.mem_append.1 hr with hr | hr
    · exact hc.recorded r (List.mem_append_left _ hr)
    · obtain rfl := List.mem_singleton.1 hr
      have := hc.recorded last (by simp)
      exact ⟨this.tail, this.arity, this.width, this.index, this.remaining, this.bounded⟩
  distinct := by
    have := hc.distinct
    simp only [List.map_append] at this ⊢
    exact this
  child := by
    obtain ⟨first, hfirst, htask, hready⟩ := hc.first
    cases below with
    | nil =>
      obtain rfl := Option.some.inj hfirst
      exact ⟨_, rfl, htask, hready⟩
    | cons r rest => exact ⟨first, hfirst, htask, hready⟩
  last := ⟨_, List.getLast?_concat, hc.parent, hhole⟩
  above k r hr hk := by
    rw [List.length_append, List.length_singleton] at hk
    rw [List.getElem?_append_left (by omega)] at hr
    exact hc.above k r hr
  parented p r hr := by
    have hnone : childrenOf [{ last with boundary }] p = [] := by
      refine childrenOf_eq_nil fun c hmem => ?_
      obtain rfl := List.mem_singleton.1 hmem
      simp [hc.parent]
    rw [childrenOf_append, hnone, List.append_nil]
    rcases Nat.lt_or_ge p below.length with hp | hp
    · rw [List.getElem?_append_left hp] at hr
      exact hc.parented p r (by rwa [List.getElem?_append_left hp])
    · obtain rfl : p = below.length := by
        have := (List.getElem?_eq_some_iff.1 hr).1
        simp at this
        omega
      rw [List.getElem?_append_right (Nat.le_refl _), Nat.sub_self] at hr
      obtain rfl := Option.some.inj hr
      have := hc.parented below.length last (by simp)
      exact ⟨fun c hmem => ⟨(this.edges c hmem).names, (this.edges c hmem).inside,
        (this.edges c hmem).covers⟩, this.apart, this.reserved, this.present, this.count⟩

theorem validate_spec {fuel : Nat} (hfuel : u.maxTasks ≤ fuel) (boundary : Option Nat)
    (entry : Bool) :
    Finishes (validate u fuel task boundary entry) m
      (fun adoption m' => Checked u m m' ∧ Adopted u m.heap task adoption) (Refused u m) := by
  refine .bind (tbTaskRecord_spec (.refl u m) task) fun head m₁ hhead => ?_
  obtain ⟨rfl, hentered⟩ := hhead
  have hm₁ := hentered.checked
  have hrecorded := hentered.recorded
  rw [← hm₁.heap] at hrecorded
  refine .get_bind ?_
  refine .bind (check_spec hm₁ _) fun tail s htail => ?_
  obtain ⟨htail, rfl⟩ := htail
  obtain rfl := Except.ok.inj (hrecorded.tail.symm.trans htail)
  refine .ite (fun _ => refused_fail hm₁ _) fun _ => ?_
  refine .ite (fun hchain => ?_) fun htree => ?_
  · refine .ite (fun _ => refused_fail hm₁ _) fun hready => ?_
    refine .bind (.get_bind (check_spec hm₁ _)) fun _ s' hok => ?_
    obtain ⟨hok, rfl⟩ := hok
    refine .bind (adoptChain_spec hm₁ (by simpa using hfuel)
      (hentered.climbing (not_not.1 hready) hok)) fun r m₂ hr => ?_
    obtain ⟨below, last⟩ := r
    obtain ⟨hm₂, hclimbed, hhole⟩ := hr
    rw [← hm₂.heap] at hhole
    refine .bind (tbTaskRoot_spec (hm₁.trans hm₂) (hclimbed.recorded last (by simp)) boundary)
      fun r s hr => ?_
    obtain ⟨rfl, rfl, -⟩ := hr
    refine .pure ⟨hm₁.trans hm₂, ?_⟩
    have hadopted : AdoptedChain u _ _ (below ++ [{ last with boundary }]) :=
      hclimbed.adopted hhole
    rwa [hm₂.heap, hm₁.heap] at hadopted
  · have hhole := not_not.1 htree
    refine .bind (tbTaskRoot_spec hm₁ hrecorded boundary) fun r s' hr => ?_
    obtain ⟨rfl, rfl, -⟩ := hr
    refine .bind (adoptTree_spec hm₁ (by simpa using hfuel) (hentered.growing hhole))
      fun records m₂ hr => ?_
    obtain ⟨hm₂, hadopted⟩ := hr
    rw [hm₁.heap] at hadopted
    exact .pure ⟨hm₁.trans hm₂, hadopted⟩

/-! ## 2. What follows the checks -/

/-- No record is made and no step is counted. -/
structure Kept (m m' : Machine) : Prop where
  tasks : m'.tasks = m.tasks
  steps : m'.steps = m.steps

/-- A computation that makes no record, however it finishes. -/
def Steady {α : Type} (x : M α) : Prop :=
  ∀ m, Finishes x m (fun _ m' => Kept m m') fun failure m' => Kept m m' ∧ failure ≠ .exhausted

namespace Steady

variable {α β : Type} {x y : M α} {f : α → M β}

theorem pure (a : α) : Steady (Pure.pure a : M α) := fun _ => .pure ⟨rfl, rfl⟩

theorem fail (message : String) : Steady (errFail message : M α) :=
  fun _ => .throw ⟨⟨rfl, rfl⟩, nofun⟩

theorem of_modify {g : Machine → Machine} (h : ∀ m, Kept m (g m)) :
    Steady (modify g : M Unit) := fun m => .of_modify (h m)

theorem bind (hx : Steady x) (hf : ∀ a, Steady (f a)) : Steady (x >>= f) := by
  intro m
  have hlater : ∀ {m₁ m₂ : Machine}, Kept m m₁ → Kept m₁ m₂ → Kept m m₂ :=
    fun h₁ h₂ => ⟨h₂.tasks.trans h₁.tasks, h₂.steps.trans h₁.steps⟩
  refine .bind (hx m) fun a m₁ h₁ => ?_
  exact (hf a m₁).mono (fun b m₂ h₂ => hlater h₁ h₂) fun failure m₂ h₂ => ⟨hlater h₁ h₂.1, h₂.2⟩

theorem get_bind {f : Machine → M β} (hf : ∀ m, Steady (f m)) : Steady (get >>= f) :=
  fun m => .get_bind (hf m m)

theorem ite {c : Prop} [Decidable c] (hx : Steady x) (hy : Steady y) :
    Steady (if c then x else y) := by
  split
  · exact hx
  · exact hy

theorem check (e : Except String α) : Steady (Tasks.check e) := by
  cases e with
  | error message => exact .fail message
  | ok a => exact .pure a

end Steady

theorem steady_ioMem : Steady (ioMem u) :=
  .get_bind fun _ => .bind (.of_modify fun _ => ⟨rfl, rfl⟩) fun _ => .ite (.pure _) (.fail _)

theorem steady_copyCells (loc count : Nat) : Steady (copyCells u loc count) :=
  .get_bind fun _ => .ite (.pure _) (.bind steady_ioMem fun _ => .pure _)

theorem steady_segmentStart (fid loc arity : Nat) (run : Run) :
    Steady (tbTaskSegmentStart u fid loc arity run) := by
  refine .bind (steady_copyCells loc arity) fun payload => .bind ?_ fun frame => .bind ?_ fun _ =>
    .pure _
  · refine .get_bind fun _ => .ite (.fail _) (.bind (.of_modify fun _ => ⟨rfl, rfl⟩) fun _ => ?_)
    exact .bind steady_ioMem fun _ => .bind (.ite (.pure _) steady_ioMem) fun _ => .pure _
  · exact .get_bind fun _ => .ite (.fail _) (.of_modify fun _ => ⟨rfl, rfl⟩)

theorem steady_startCpu (task : Nat) (run : Run) : Steady (tbTaskStartCpu u task run) := by
  refine .get_bind fun m => .bind (.check _) fun arity => .bind ?_ fun run => .bind ?_ fun _ =>
    .pure _
  · refine .ite (steady_segmentStart _ _ _ run) (.ite (.pure _) (.ite (.pure _) ?_))
    exact .bind (steady_copyCells _ _) fun _ => .pure _
  · exact .get_bind fun m => .bind (.of_modify fun _ => ⟨rfl, rfl⟩) fun _ => .check _

theorem steady_start (place : Nat) (record : Record) : Steady (tbTaskStart u place record) := by
  refine .ite (.fail _) (.bind (.get_bind fun _ => .check _) fun _ => .bind steady_ioMem fun _ =>
    .bind ?_ fun _ => .bind ?_ fun run => .of_modify fun _ => ⟨rfl, rfl⟩)
  · exact .get_bind fun _ => .ite (.of_modify fun _ => ⟨rfl, rfl⟩) (.fail _)
  · refine .ite (.bind ?_ fun _ => .pure _) (steady_startCpu _ _)
    exact .get_bind fun _ => .bind (.check _) fun _ => .of_modify fun _ => ⟨rfl, rfl⟩

/-- The records are started in order, by induction on the list. -/
theorem steady_startReady (records : List (Record × Nat)) : Steady (startReady u records) := by
  induction records with
  | nil => exact .pure _
  | cons entry rest ih => exact .ite (.bind (steady_start _ _) fun _ => ih) ih

theorem steady_enact (adoption : Adoption) : Steady (enact u adoption) := by
  cases adoption with
  | chain below last => exact steady_start _ _
  | tree records => exact .bind (.of_modify fun _ => ⟨rfl, rfl⟩) fun _ => steady_startReady _

/-! ## 3. The adoption -/

/-- **An adoption checks before it acts.**  It ends within the limits of tasks and of steps.  Either
a check fails, and the heap and the queue are as they were; or the tasks are a tree or a chain, and
only then cells are emptied and tasks are started. -/
theorem adopt_validates (u : Setting) (m : Machine) (fuel task : Nat) (boundary : Option Nat)
    (entry : Bool) :
    ((∃ message m', tbTaskAdopt u (u.maxTasks + fuel) task boundary entry m =
        .error (.fail message) m' ∧ m'.heap = m.heap ∧ m'.queue = m.queue) ∨
      ∃ adoption m', validate u (u.maxTasks + fuel) task boundary entry m = .ok adoption m' ∧
        m'.heap = m.heap ∧ m'.queue = m.queue ∧ Adopted u m.heap task adoption ∧
        tbTaskAdopt u (u.maxTasks + fuel) task boundary entry m = enact u adoption m') ∧
    Finishes (tbTaskAdopt u (u.maxTasks + fuel) task boundary entry) m
      (fun _ m' => m'.tasks ≤ max m.tasks u.maxTasks ∧ m'.steps ≤ max m.steps u.maxSteps)
      (fun failure m' => failure ≠ .exhausted ∧
        m'.tasks ≤ max m.tasks u.maxTasks ∧ m'.steps ≤ max m.steps u.maxSteps) := by
  have hspec : Finishes (validate u (u.maxTasks + fuel) task boundary entry) m
      (fun adoption m' => Checked u m m' ∧ Adopted u m.heap task adoption) (Refused u m) :=
    validate_spec (Nat.le_add_right _ _) boundary entry
  constructor
  · rcases hspec.cases with ⟨adoption, m', hrun, hm', hadopted⟩ | ⟨failure, m', hrun, hm', hne⟩
    · refine .inr ⟨adoption, m', hrun, hm'.heap, hm'.queue, hadopted, ?_⟩
      change EStateM.bind _ _ m = _
      unfold EStateM.bind
      rw [hrun]
    · cases failure with
      | exhausted => exact absurd rfl hne
      | fail message =>
        refine .inl ⟨message, m', ?_, hm'.heap, hm'.queue⟩
        change EStateM.bind _ _ m = _
        unfold EStateM.bind
        rw [hrun]
  · refine .bind (hspec.mono (fun _ _ h => h) fun failure m' h => ⟨h.2, h.1.tasks, h.1.steps⟩) ?_
    rintro adoption m' ⟨hm', -⟩
    refine (steady_enact adoption m').mono (fun _ m'' hk => ?_) fun failure m'' hk => ?_
    · rw [hk.tasks, hk.steps]
      exact ⟨hm'.tasks, hm'.steps⟩
    · rw [hk.1.tasks, hk.1.steps]
      exact ⟨hk.2, hm'.tasks, hm'.steps⟩

end TeamyBend.Runtime.Tasks
