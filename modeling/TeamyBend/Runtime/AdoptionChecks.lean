/-
# What the checks of an adoption leave

The checks read the heap and write the tables of records only (`Checked`): where one fails, no cell
was emptied and no task was started.  A record that is made is one that no record was made for, and
it has the words of its task (`Recorded`).
-/
import TeamyBend.Library.Finishes
import TeamyBend.Runtime.TaskAdoption

namespace TeamyBend.Runtime.Tasks

open BlockHeap (Heap tbSpan)
open Library (Finishes)

variable {u : Setting} {m₀ m m₁ m₂ : Machine} {h : Heap} {task : Nat} {record : Record}

/-! ## 1. Checked machines -/

/-- The heap and the queue are as they were, and the records and steps within their limits. -/
structure Checked (u : Setting) (m m' : Machine) : Prop where
  heap : m'.heap = m.heap
  queue : m'.queue = m.queue
  table : ∀ loc, loc ∈ m.table (tbTaskHash loc) → loc ∈ m'.table (tbTaskHash loc)
  tasks : m'.tasks ≤ max m.tasks u.maxTasks
  steps : m'.steps ≤ max m.steps u.maxSteps

theorem Checked.refl (u : Setting) (m : Machine) : Checked u m m :=
  ⟨rfl, rfl, fun _ => id, Nat.le_max_left _ _, Nat.le_max_left _ _⟩

/-- Two checked stretches in a row are checked. -/
theorem Checked.trans (h₁ : Checked u m m₁) (h₂ : Checked u m₁ m₂) : Checked u m m₂ where
  heap := h₂.heap.trans h₁.heap
  queue := h₂.queue.trans h₁.queue
  table loc hloc := h₂.table loc (h₁.table loc hloc)
  tasks := by
    have := h₁.tasks
    have := h₂.tasks
    omega
  steps := by
    have := h₁.steps
    have := h₂.steps
    omega

/-- A check that fails, of a run that started with a machine. -/
def Refused (u : Setting) (m₀ : Machine) (failure : Failure) (m : Machine) : Prop :=
  Checked u m₀ m ∧ failure ≠ .exhausted

theorem refused_fail {α : Type} {Q : α → Machine → Prop} (hm : Checked u m₀ m) (message : String) :
    Finishes (errFail message) m Q (Refused u m₀) := .throw ⟨hm, nofun⟩

theorem check_spec {α : Type} (hm : Checked u m₀ m) (x : Except String α) :
    Finishes (check x) m (fun a m' => x = .ok a ∧ m' = m) (Refused u m₀) := by
  cases x with
  | error message => exact refused_fail hm message
  | ok a => exact .pure ⟨rfl, rfl⟩

theorem ioMem_spec (hm : Checked u m₀ m) :
    Finishes (ioMem u) m (fun _ m' => m' = { m with allocations := m.allocations + 1 })
      (Refused u m₀) := by
  refine .get_bind ?_
  refine .modify_bind ?_
  refine .ite (fun _ => .pure rfl) fun _ => refused_fail ?_ _
  exact ⟨hm.heap, hm.queue, hm.table, hm.tasks, hm.steps⟩

/-- A tick changes neither the table nor the tasks. -/
theorem tbTick_spec (hm : Checked u m₀ m) :
    Finishes (tbTick u) m (fun _ m' => Checked u m m' ∧ m'.table = m.table ∧ m'.tasks = m.tasks)
      (Refused u m₀) := by
  refine .get_bind ?_
  refine .ite (fun _ => refused_fail hm _) fun _ => ?_
  refine .ite (fun _ => refused_fail hm _) fun hsteps => ?_
  refine .of_modify ⟨⟨rfl, rfl, fun _ => id, Nat.le_max_left _ _, ?_⟩, rfl, rfl⟩
  dsimp only
  omega

/-! ## 2. Records -/

def Record.loc (r : Record) : Nat := termLoc r.task

/-- The words of a task are those of its record. -/
structure Recorded (u : Setting) (h : Heap) (r : Record) : Prop where
  tail : taskTail u h r.task = .ok (r.loc + r.arity)
  arity : fidArity u (termAux r.task) = .ok r.arity
  width : fidResultWidth u (termAux r.task) = .ok r.width
  index : r.index = h.cells (r.loc + r.arity + 1) / 2 ^ 32 % 2 ^ 32
  remaining : r.remaining = h.cells (r.loc + r.arity + 1) % 2 ^ 32
  bounded : r.remaining ≤ r.arity

/-- A record that was made. -/
structure Entered (u : Setting) (m m' : Machine) (r : Record) : Prop where
  checked : Checked u m m'
  recorded : Recorded u m.heap r
  parent : r.parent = none
  reserved : r.reserved = fun _ => false
  absent : r.loc ∉ m.table (tbTaskHash r.loc)
  present : r.loc ∈ m'.table (tbTaskHash r.loc)
  tasks : m'.tasks = m.tasks + 1
  limit : m'.tasks ≤ u.maxTasks

/-- The tail of a task follows its arguments. -/
theorem taskTail_ok {tail : Nat} (htail : taskTail u h task = .ok tail) :
    ∃ arity, fidArity u (termAux task) = .ok arity ∧ tail = termLoc task + arity := by
  unfold taskTail at htail
  split at htail
  · cases htail
  · split at htail
    · cases htail
    · cases harity : fidArity u (termAux task) with
      | error message =>
        rw [harity] at htail
        cases htail
      | ok arity =>
        rw [harity] at htail
        dsimp only at htail
        split at htail
        · cases htail
        · cases htail
          exact ⟨arity, rfl, rfl⟩

/-- To enter a record is checked below the task limit. -/
theorem checked_enter {loc : Nat} (htasks : m.tasks < u.maxTasks) :
    Checked u m (m.enter loc) where
  heap := rfl
  queue := rfl
  table loc' hloc' := by
    unfold Machine.enter
    by_cases heq : tbTaskHash loc' = tbTaskHash loc
    · rw [heq] at hloc' ⊢
      simp [hloc']
    · simpa [heq] using hloc'
  tasks := by
    change m.tasks + 1 ≤ _
    omega
  steps := Nat.le_max_left _ _

/-- A record that is made is entered in the table. -/
theorem tbTaskRecord_spec (hm : Checked u m₀ m) (task : Nat) :
    Finishes (tbTaskRecord u task) m (fun r m' => r.task = task ∧ Entered u m m' r)
      (Refused u m₀) := by
  refine .get_bind ?_
  refine .bind (check_spec hm _) fun tail s htail => ?_
  obtain ⟨htail, rfl⟩ := htail
  obtain ⟨arity, harity, rfl⟩ := taskTail_ok htail
  refine .ite (fun _ => refused_fail hm _) fun habsent => ?_
  refine .ite (fun _ => refused_fail hm _) fun hlimit => ?_
  refine .bind (ioMem_spec hm) fun _ s' hs' => ?_
  have hallocated : Checked u s s' := by
    subst hs'
    exact ⟨rfl, rfl, fun _ => id, Nat.le_max_left _ _, Nat.le_max_left _ _⟩
  refine .bind (check_spec (hm.trans hallocated) _) fun arity' s'' harity' => ?_
  obtain ⟨harity', rfl⟩ := harity'
  obtain rfl : arity = arity' := Except.ok.inj (harity.symm.trans harity')
  refine .bind (check_spec (hm.trans hallocated) _) fun width m₂ hwidth => ?_
  obtain ⟨hwidth, rfl⟩ := hwidth
  refine .ite (fun _ => refused_fail (hm.trans hallocated) _) fun hremaining => ?_
  have htasks : m₂.tasks = s.tasks := by rw [hs']
  have hentered : Entered u s (m₂.enter (termLoc task))
      (recordOf s.heap task arity width (termLoc task + arity)) := by
    have hlt : m₂.tasks < u.maxTasks := by omega
    exact {
      checked := hallocated.trans (checked_enter hlt)
      recorded := ⟨htail, harity, hwidth, rfl, rfl, Nat.le_of_not_lt hremaining⟩
      parent := rfl
      reserved := rfl
      absent := habsent
      present := by
        simp [Machine.enter, Record.loc, recordOf]
      tasks := congrArg (· + 1) htasks
      limit := hlt }
  refine .modify_bind ?_
  refine .ite (fun _ => .pure ⟨rfl, hentered⟩) fun _ => ?_
  refine .ite (fun _ => refused_fail (hm.trans hentered.checked) _) fun _ => ?_
  refine .modify_bind ?_
  refine .pure ⟨rfl, ⟨?_, hentered.recorded, rfl, rfl, habsent, hentered.present, hentered.tasks,
    hentered.limit⟩⟩
  have := hentered.checked
  exact ⟨this.heap, this.queue, this.table, this.tasks, this.steps⟩

end TeamyBend.Runtime.Tasks
