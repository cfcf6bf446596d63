/-
# Calls on blocks that are held

One rule for each call that the operations on values make: on a block that is held it is accepted,
and the rest runs with the heap that it leaves.  A rule has no room for the error of a check.
-/
import TeamyBend.Library.Finishes
import TeamyBend.Runtime.HeapAccess
import TeamyBend.Runtime.NativeValues

namespace TeamyBend.Runtime.Values

open BlockHeap (Heap Block Env Outcome Beside metaLoc tbMetaSealed tbMetaOwned)
open Library (Finishes)
open Tasks (Machine M Failure)

/-- Why a machine goes no further: its run was cancelled, or its steps are used up. -/
inductive Tired (u : Program) (m : Machine) : Failure → Prop
  | cancelled (h : m.cancelled = true) : Tired u m (.fail "CPU execution cancelled")
  | steps (h : u.maxSteps ≤ m.steps ∨ m.steps = 2 ^ 64 - 1) :
    Tired u m (.fail "evaluation budget exhausted")

section Calls

variable {α β : Type} {u : Program} {m : Machine} {held : Multiset Block} {b : Block}
  {loc cls count value : Nat} {R : β → Machine → Prop} {E : Failure → Machine → Prop}

/-- A check that passes leaves the machine as it is. -/
theorem onCheck_bind {call : Env → Heap → Except String α} {f : α → M β} {a : α}
    (hcall : call ⟨m.heap.memory⟩ m.heap = .ok a) (hf : Finishes (f a) m R E) :
    Finishes (onCheck call >>= f) m R E := by
  have hrun : Finishes (onCheck call) m (fun b m' => b = a ∧ m' = m) E := by
    refine .get_bind ?_
    rw [hcall]
    exact .pure ⟨rfl, rfl⟩
  refine hrun.bind ?_
  rintro b m' ⟨rfl, rfl⟩
  exact hf

/-- A call on the heap that is accepted changes the heap only. -/
theorem onHeap_bind {call : Env → Heap → Outcome α} {f : α → M β} {a : α} {heap : Heap}
    (hcall : call ⟨m.heap.memory⟩ m.heap = (.ok a, heap))
    (hf : Finishes (f a) { m with heap } R E) :
    Finishes (onHeap call >>= f) m R E := by
  have hrun : Finishes (onHeap call) m (fun b m' => b = a ∧ m' = { m with heap }) E := by
    refine .get_bind ?_
    rw [hcall]
    exact .modify_bind (.pure ⟨rfl, rfl⟩)
  refine hrun.bind ?_
  rintro b m' ⟨rfl, rfl⟩
  exact hf

/-- A result that is no error is taken. -/
theorem check_bind {f : α → M β} {a : α} {r : Except String α} (hr : r = .ok a)
    (hf : Finishes (f a) m R E) : Finishes (Tasks.check r >>= f) m R E := by
  rw [hr]
  exact hf

/-- The cells of a block that is held are a span. -/
theorem span_bind {f : Unit → M β} (hh : m.heap.Holds held) (hb : b ∈ held) (hloc : b.Has loc)
    (hcount : loc + count ≤ b.start + b.size) (hf : Finishes (f ()) m R E) :
    Finishes (span loc count >>= f) m R E :=
  onCheck_bind (hh.span hb hloc hcount) hf

/-- A block that is held has its class. -/
theorem allocation_bind {f : Unit → M β} (hh : m.heap.Holds held) (hb : (⟨loc, cls⟩ : Block) ∈ held)
    (hf : Finishes (f ()) m R E) : Finishes (allocation loc cls >>= f) m R E :=
  onCheck_bind (hh.allocation hb) hf

/-- A cell of a block that is held is read. -/
theorem read_bind {f : Nat → M β} (hh : m.heap.Holds held) (hb : b ∈ held) (hloc : b.Has loc)
    (hf : Finishes (f (m.heap.cells loc)) m R E) : Finishes (read loc >>= f) m R E := by
  have hrun : Finishes (read loc) m (fun a m' => a = m.heap.cells loc ∧ m' = m) E :=
    span_bind hh hb hloc hloc.2 (.get_bind (.pure ⟨rfl, rfl⟩))
  refine hrun.bind ?_
  rintro a m' ⟨rfl, rfl⟩
  exact hf

/-- The mark of a cell of a block that is held is read. -/
theorem cellOwned_bind {f : Bool → M β} (hh : m.heap.Holds held) (hb : b ∈ held) (hloc : b.Has loc)
    (hf : Finishes (f (m.heap.owned loc)) m R E) : Finishes (cellOwned loc >>= f) m R E := by
  refine onCheck_bind ?_ hf
  rw [Tasks.tbCellOwned, hh.span hb hloc hloc.2]
  rfl

/-- A cell of a block that is held is written. -/
theorem write_bind {f : Unit → M β} (hh : m.heap.Holds held) (hb : b ∈ held) (hloc : b.Has loc)
    (hf : Finishes (f ())
      { m with heap := { m.heap with cells := Function.update m.heap.cells loc value } } R E) :
    Finishes (write loc value >>= f) m R E :=
  onHeap_bind (hh.store hb hloc).1 hf

/-- A block that is held is given back, and the others are held still. -/
theorem free_bind {f : Unit → M β} (hh : m.heap.Holds (⟨loc, cls⟩ ::ₘ held))
    (hf : ∀ heap : Heap, heap.Holds held → Beside ⟨loc, cls⟩ m.heap heap →
      Finishes (f ()) { m with heap } R E) : Finishes (free cls loc >>= f) m R E := by
  obtain ⟨heap, hcall, hheld, hbeside⟩ := hh.free
  exact onHeap_bind hcall (hf heap hheld hbeside)

/-- A block that is held is marked as sealed, or as not sealed. -/
theorem setSealed_bind {f : Unit → M β} {sealing : Bool} (hh : m.heap.Holds held)
    (hb : (⟨loc, cls⟩ : Block) ∈ held)
    (hf : ∀ heap : Heap, heap.Holds held → Beside ⟨loc, cls⟩ m.heap heap →
      Finishes (f ()) { m with heap } R E) : Finishes (setSealed loc sealing >>= f) m R E := by
  obtain ⟨heap, hcall, hheld, hbeside⟩ := hh.setSealed hb sealing
  exact onHeap_bind hcall (hf heap hheld hbeside)

/-- Cells of a block that is held and not sealed are marked as raw. -/
theorem markRaw_bind {f : Unit → M β} (hh : m.heap.Holds held) (hb : b ∈ held) (hloc : b.Has loc)
    (hcount : loc + count ≤ b.start + b.size) (hopen : m.heap.sealed b.start = false)
    (hf : ∀ heap : Heap, heap.Holds held → Beside b m.heap heap → heap.cells = m.heap.cells →
      Finishes (f ()) { m with heap } R E) : Finishes (markRaw loc count >>= f) m R E := by
  obtain ⟨heap, hcall, hheld, hbeside, hcells⟩ := hh.markRaw hb hloc hcount hopen
  exact onHeap_bind hcall (hf heap hheld hbeside hcells)

/-- The seal of a block that is held is read. -/
theorem cellSealed_bind {f : Bool → M β} (hh : m.heap.Holds held) (hb : b ∈ held)
    (hf : Finishes (f (m.heap.sealed b.start)) m R E) :
    Finishes (cellSealed b.start >>= f) m R E := by
  refine onCheck_bind ?_ hf
  rw [hh.span hb b.has_start b.has_start.2]
  dsimp only
  rw [hh.owner hb b.has_start]
  rfl

/-- A step is counted, or the machine goes no further. -/
theorem tbTick_bind {f : Unit → M β}
    (hf : m.steps < u.maxSteps → Finishes (f ()) { m with steps := m.steps + 1 } R
      fun err m' => Tired u m' err) :
    Finishes (Tasks.tbTick u.toSetting >>= f) m R fun err m' => Tired u m' err := by
  have hrun : Finishes (Tasks.tbTick u.toSetting) m
      (fun _ m' => m.steps < u.maxSteps ∧ m' = { m with steps := m.steps + 1 })
      fun err m' => Tired u m' err := by
    refine .get_bind (.ite (fun hcancelled => .throw (.cancelled hcancelled)) fun _ =>
      .ite (fun hsteps => .throw (.steps hsteps)) fun hsteps => ?_)
    exact .of_modify ⟨by omega, rfl⟩
  refine hrun.bind ?_
  rintro _ m' ⟨hsteps, rfl⟩
  exact hf hsteps

end Calls

end TeamyBend.Runtime.Values
