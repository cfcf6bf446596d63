/-
# What a collection keeps

The nodes of the two arenas form a graph, in which a node leads to what it keeps alive.  Marking is
a search of it from the roots of the machine, so a collection that finishes keeps the nodes that
are reachable from the roots, at their places and with their contents, and nothing else; each empty
slot is then on its free list once (`collect_exact`).

It fails only where a node that is reachable is missing, or for want of steps.
-/
import TeamyBend.Runtime.Collection
import TeamyBend.Library.Finishes
import TeamyBend.Library.Worklist

namespace TeamyBend.Runtime.Evaluator

open Library (Finishes Reaches Search)

/-! ## 1. The graph of the two arenas -/

/-- The nodes that a node leads to, where its slot is occupied. -/
def Machine.edgesAt (m : Machine) : Node → Option (List Node)
  | .Thunk id => (m.thunkAt id).map Thunk.nodes
  | .Environment id => (m.environmentAt id).map Environment.nodes

/-- The slot of a node is occupied. -/
def Machine.Occupied (m : Machine) (node : Node) : Prop := (m.edgesAt node).isSome

def Machine.Edge (m : Machine) (x y : Node) : Prop := ∃ nodes, m.edgesAt x = some nodes ∧ y ∈ nodes

/-- What the roots keep alive. -/
def Machine.Live (m : Machine) (current : ThunkId) (frames : List Frame) : Node → Prop :=
  Reaches m.Edge (· ∈ m.roots current frames)

/-- Only steps are used up. -/
def Spent (m m' : Machine) : Prop := ∃ remaining, m' = { m with remaining }

theorem Spent.refl (m : Machine) : Spent m m := ⟨m.remaining, rfl⟩

theorem Spent.trans {m₁ m₂ m₃ : Machine} (h : Spent m₁ m₂) (h' : Spent m₂ m₃) : Spent m₁ m₃ := by
  obtain ⟨_, rfl⟩ := h
  obtain ⟨r, rfl⟩ := h'
  exact ⟨r, rfl⟩

/-- The error of a machine that has no steps left. -/
def exhausted : KernelError := .new "data runtime step budget exhausted"

variable {m m' : Machine} {current : ThunkId} {frames : List Frame} {node : Node}
  {nodes : List Node} {marks marks' : Marks} {start : Node → Prop}

theorem Machine.occupied_iff : m.Occupied node ↔ ∃ nodes, m.edgesAt node = some nodes :=
  Option.isSome_iff_exists

/-- An occupied node is within its arena. -/
theorem Machine.Occupied.within (h : m.Occupied node) : m.within node = true := by
  cases node with
  | Thunk id =>
    by_contra hid
    have hnone : m.arena[id]? = none :=
      List.getElem?_eq_none (Nat.le_of_not_lt fun hlt => hid (decide_eq_true hlt))
    rw [Occupied, edgesAt, thunkAt, hnone] at h
    cases h
  | Environment id =>
    by_contra hid
    have hnone : m.environments[id]? = none :=
      List.getElem?_eq_none (Nat.le_of_not_lt fun hlt => hid (decide_eq_true hlt))
    rw [Occupied, edgesAt, environmentAt, hnone] at h
    cases h

theorem tick_spent :
    Finishes tick m (fun _ m' => Spent m m') (fun err _ => err = exhausted) := by
  cases hremaining : m.remaining with
  | zero => exact .error (tick_exhausted hremaining) rfl
  | succ r => exact .ok (tick_run hremaining) ⟨r, rfl⟩

/-! ## 2. Marking -/

/-- The nodes are marked, and those that were not are on the work list. -/
structure Marked (marks : Marks) (nodes : List Node) (marks' : Marks) : Prop where
  marked : ∀ n, n ∈ marks'.marked ↔ n ∈ marks.marked ∨ n ∈ nodes
  pending : ∀ n, n ∈ marks'.pending ↔ n ∈ marks.pending ∨ n ∈ nodes ∧ n ∉ marks.marked

/-- The nodes on the work list are marked, and each is there once. -/
structure Marks.Tidy (marks : Marks) : Prop where
  nodup : marks.pending.Nodup
  marked : ∀ n ∈ marks.pending, n ∈ marks.marked

/-- To mark a node adds it, or it is not occupied. -/
theorem mark_spec (htidy : marks.Tidy) :
    Finishes (mark marks node) m
      (fun marks' m' => Spent m m' ∧ Marked marks [node] marks' ∧ marks'.Tidy)
      (fun err _ => err = exhausted ∨ ¬m.Occupied node) := by
  refine .bind (tick_spent.mono (fun _ _ h => h) fun _ _ h => .inl h) ?_
  rintro _ _ ⟨r, rfl⟩
  refine .get_bind (.ite (fun hout => ?_) fun hin => .ite (fun hmem => ?_) fun hmem => ?_)
  · have hvacant : ¬m.Occupied node := fun h => hout h.within
    cases node with
    | Thunk id => exact .throw (.inr hvacant)
    | Environment id => exact .throw (.inr hvacant)
  · refine .pure ⟨⟨r, rfl⟩, ⟨fun n => ?_, fun n => ?_⟩, htidy⟩
    · simp only [List.mem_singleton]
      exact ⟨.inl, fun h => h.elim id fun h => h ▸ hmem⟩
    · simp only [List.mem_singleton]
      exact ⟨.inl, fun h => h.elim id fun h => absurd (h.1 ▸ hmem) h.2⟩
  · refine .pure ⟨⟨r, rfl⟩, ⟨fun n => ?_, fun n => ?_⟩, ⟨?_, fun n hn => ?_⟩⟩
    · rw [List.mem_cons, List.mem_singleton, or_comm]
    · rw [List.mem_cons, List.mem_singleton]
      constructor
      · rintro (rfl | hn)
        · exact .inr ⟨rfl, hmem⟩
        · exact .inl hn
      · rintro (hn | ⟨rfl, -⟩)
        · exact .inr hn
        · exact .inl rfl
    · exact List.nodup_cons.2 ⟨fun hn => hmem (htidy.marked _ hn), htidy.nodup⟩
    · rcases List.mem_cons.1 hn with rfl | hn
      · exact List.mem_cons_self
      · exact List.mem_cons_of_mem _ (htidy.marked n hn)

/-- To mark nodes adds them all, or one is not occupied. -/
theorem markAll_spec (htidy : marks.Tidy) :
    Finishes (markAll marks nodes) m
      (fun marks' m' => Spent m m' ∧ Marked marks nodes marks' ∧ marks'.Tidy)
      (fun err _ => err = exhausted ∨ ∃ n ∈ nodes, ¬m.Occupied n) := by
  induction nodes generalizing marks m with
  | nil => exact .pure ⟨.refl m, ⟨fun n => by simp, fun n => by simp⟩, htidy⟩
  | cons node nodes ih =>
    refine .bind ((mark_spec htidy).mono (fun _ _ h => h)
      fun _ _ h => h.imp_right fun h => ⟨node, List.mem_cons_self, h⟩) ?_
    rintro marks₁ _ ⟨⟨r, rfl⟩, hfirst, htidy₁⟩
    refine (ih htidy₁).mono ?_ ?_
    · rintro marks₂ _ ⟨⟨r', rfl⟩, hrest, htidy₂⟩
      refine ⟨⟨r', rfl⟩, ⟨fun n => ?_, fun n => ?_⟩, htidy₂⟩
      · rw [hrest.marked, hfirst.marked, List.mem_singleton, List.mem_cons, or_assoc]
      · rw [hrest.pending, hfirst.pending, hfirst.marked, List.mem_singleton, List.mem_cons]
        by_cases hn : n = node <;> tauto
    · rintro err _ (herr | ⟨n, hn, hvacant⟩)
      · exact .inl herr
      · exact .inr ⟨n, List.mem_cons_of_mem _ hn, hvacant⟩

/-- The edges of a node are listed when it is occupied. -/
theorem edges_spec :
    Finishes (edges node) m (fun nodes m' => m' = m ∧ m.edgesAt node = some nodes)
      (fun _ _ => ¬m.Occupied node) := by
  refine .get_bind ?_
  cases node with
  | Thunk id =>
    dsimp only
    cases hat : m.thunkAt id with
    | none => exact .throw fun h => by simp [Machine.Occupied, Machine.edgesAt, hat] at h
    | some thunk => exact .pure ⟨rfl, by rw [Machine.edgesAt, hat, Option.map_some]⟩
  | Environment id =>
    dsimp only
    cases hat : m.environmentAt id with
    | none => exact .throw fun h => by simp [Machine.Occupied, Machine.edgesAt, hat] at h
    | some environment => exact .pure ⟨rfl, by rw [Machine.edgesAt, hat, Option.map_some]⟩

/-- Marking is a search: it is done with what is marked and not on the work list. -/
structure Marking (m : Machine) (start : Node → Prop) (marks : Marks) : Prop where
  tidy : marks.Tidy
  search : Search m.Edge start (fun n => n ∈ marks.marked ∧ n ∉ marks.pending) (· ∈ marks.pending)
  occupied : ∀ n ∈ marks.marked, n ∉ marks.pending → m.Occupied n

/-- Steps do not matter to the search. -/
theorem Marking.spent (h : Marking m start marks) (hspent : Spent m m' ∨ Spent m' m) :
    Marking m' start marks := by
  rcases hspent with ⟨r, rfl⟩ | ⟨r, rfl⟩
  · exact ⟨h.tidy, h.search, h.occupied⟩
  · exact ⟨h.tidy, h.search, h.occupied⟩

theorem Marking.marked_or (h : Marking m start marks) (n : Node) :
    ((n ∈ marks.marked ∧ n ∉ marks.pending) ∨ n ∈ marks.pending) ↔ n ∈ marks.marked := by
  by_cases hn : n ∈ marks.pending
  · simp [hn, h.tidy.marked n hn]
  · simp [hn]

/-- The next node of the work list is looked at. -/
theorem Marking.look {pending : List Node} (h : Marking m start marks)
    (hpending : marks.pending = node :: pending) (hedges : m.edgesAt node = some nodes)
    (hmarked : Marked { marks with pending } nodes marks') (htidy : marks'.Tidy) :
    Marking m start marks' := by
  have hmem : node ∈ marks.pending := hpending ▸ List.mem_cons_self
  have hfresh : node ∉ pending := (List.nodup_cons.1 (hpending ▸ h.tidy.nodup)).1
  have hold (n : Node) : n ∈ marks.pending ↔ n = node ∨ n ∈ pending := by
    rw [hpending, List.mem_cons]
  have hdone (n : Node) : (n ∈ marks'.marked ∧ n ∉ marks'.pending) ↔
      (n ∈ marks.marked ∧ n ∉ marks.pending) ∨ n = node := by
    have hnode := h.tidy.marked node hmem
    rw [hmarked.marked, hmarked.pending, hold]
    by_cases hn : n = node
    · subst hn
      simp [hnode, hfresh]
    · simp only [hn, false_or, or_false]
      tauto
  have hedge (n : Node) : m.Edge node n ↔ n ∈ nodes := by
    simp only [Machine.Edge, hedges, Option.some.injEq, exists_eq_left']
  refine ⟨htidy, h.search.look hmem hdone fun n => ?_, fun n hn hnot => ?_⟩
  · rw [h.marked_or, hedge, ← hmarked.marked]
    by_cases hn : n ∈ marks'.pending
    · simp [hn, htidy.marked n hn]
    · simp [hn]
  · rcases (hdone n).1 ⟨hn, hnot⟩ with ⟨hn, hnot⟩ | rfl
    · exact h.occupied n hn hnot
    · exact Machine.occupied_iff.2 ⟨nodes, hedges⟩

theorem markLoop_spec (gas : Nat) (h : Marking m start marks) :
    Finishes (markLoop gas marks) m
      (fun marks' m' => Spent m m' ∧ Marking m start marks' ∧ marks'.pending = [])
      (fun err _ => err = exhausted ∨ ∃ n, Reaches m.Edge start n ∧ ¬m.Occupied n) := by
  induction gas generalizing m marks with
  | zero => exact .throw (.inl rfl)
  | succ gas ih =>
    unfold markLoop
    split
    · next hpending => exact .pure ⟨.refl m, h, hpending⟩
    · next node pending hpending =>
      have hreached : Reaches m.Edge start node :=
        h.search.sound node (.inr (hpending ▸ List.mem_cons_self))
      refine .bind (tick_spent.mono (fun _ _ h => h) fun _ _ h => .inl h) ?_
      rintro _ _ ⟨r, rfl⟩
      refine .bind (edges_spec.mono (fun _ _ h => h) fun _ _ h => .inr ⟨node, hreached, h⟩) ?_
      rintro nodes _ ⟨rfl, hedges⟩
      have htidy : Marks.Tidy { marks with pending } := by
        have hnodup := hpending ▸ h.tidy.nodup
        exact ⟨hnodup.of_cons, fun n hn =>
          h.tidy.marked n (hpending ▸ List.mem_cons_of_mem _ hn)⟩
      refine .bind ((markAll_spec htidy).mono (fun _ _ h => h) ?_) ?_
      · rintro err _ (herr | ⟨n, hn, hvacant⟩)
        · exact .inl herr
        · exact .inr ⟨n, hreached.tail ⟨nodes, hedges, hn⟩, hvacant⟩
      · rintro marks₁ _ ⟨⟨r', rfl⟩, hmarked, htidy₁⟩
        have hnext : Marking { m with remaining := r' } start marks₁ :=
          (h.look hpending hedges hmarked htidy₁).spent (.inl ⟨r', rfl⟩)
        refine (ih hnext).mono ?_ fun _ _ h => h
        rintro marks₂ _ ⟨⟨r₂, rfl⟩, hmarking, hdone⟩
        exact ⟨⟨r₂, rfl⟩, hmarking.spent (.inr ⟨r', rfl⟩), hdone⟩

/-! ## 3. Sweeping -/

/-- Several ticks spend steps only. -/
theorem ticks_spent (n : Nat) :
    Finishes (ticks n) m (fun _ m' => Spent m m') (fun err _ => err = exhausted) := by
  induction n generalizing m with
  | zero => exact .pure (.refl m)
  | succ n ih =>
    refine .bind tick_spent ?_
    intro _ m₁ hfirst
    exact ih.imp fun _ _ hrest => hfirst.trans hrest

/-- The empty slots, the highest first. -/
def vacant {α : Type} (slots : List (Option α)) : List Nat :=
  ((List.range slots.length).filter fun id => slots[id]?.join.isNone).reverse

theorem vacant_nodup {α : Type} (slots : List (Option α)) : (vacant slots).Nodup :=
  List.nodup_reverse.2 (List.nodup_range.filter _)

/-- The vacant slots are those that hold nothing. -/
theorem mem_vacant {α : Type} {slots : List (Option α)} {id : Nat} :
    id ∈ vacant slots ↔ slots[id]? = some none := by
  rw [vacant, List.mem_reverse, List.mem_filter, List.mem_range]
  constructor
  · rintro ⟨hlt, hnone⟩
    rw [List.getElem?_eq_getElem hlt] at hnone ⊢
    exact congrArg some (Option.isNone_iff_eq_none.1 hnone)
  · intro hnone
    obtain ⟨hlt, -⟩ := List.getElem?_eq_some_iff.1 hnone
    exact ⟨hlt, by rw [hnone]; rfl⟩

/-- The slots that are live keep their contents, the others are empty. -/
structure Swept {α : Type} (live : Nat → Prop) (slots slots' : List (Option α)) (free : List Nat) :
    Prop where
  length : slots'.length = slots.length
  kept : ∀ id, live id → ∃ a, slots[id]? = some (some a) ∧ slots'[id]? = some (some a)
  emptied : ∀ id < slots.length, ¬live id → slots'[id]? = some none
  free : free = vacant slots'

/-- A sweep empties what is not live and lists what is vacant. -/
theorem sweep_swept {α : Type} {live : Nat → Prop} {keep : Nat → Bool} {slots : List (Option α)}
    (hkeep : ∀ id, keep id = true ↔ live id)
    (hlive : ∀ id, live id → ∃ a, slots[id]? = some (some a)) :
    Swept live slots (sweep keep slots).1 (sweep keep slots).2 := by
  have hget (id : Nat) : (sweep keep slots).1[id]? =
      slots[id]?.map fun slot => if keep id then slot else none := List.getElem?_mapIdx
  have hlength : (sweep keep slots).1.length = slots.length := List.length_mapIdx
  refine ⟨hlength, fun id hid => ?_, fun id hlt hid => ?_, ?_⟩
  · obtain ⟨a, ha⟩ := hlive id hid
    exact ⟨a, ha, by rw [hget, ha, Option.map_some, if_pos ((hkeep id).2 hid)]⟩
  · rw [hget, List.getElem?_eq_getElem hlt, Option.map_some, if_neg (mt (hkeep id).1 hid)]
  · rw [vacant, hlength]
    refine congrArg List.reverse (List.filter_congr fun id hid => ?_)
    rw [hget, List.getElem?_eq_getElem (List.mem_range.1 hid), Option.map_some]
    cases hkept : keep id with
    | false => simp
    | true =>
      obtain ⟨a, ha⟩ := hlive id ((hkeep id).1 hkept)
      rw [List.getElem?_eq_getElem (List.mem_range.1 hid), Option.some.injEq] at ha
      simp [ha]

/-! ## 4. Collecting -/

/-- What a collection leaves: the live nodes at their places, and nothing else. -/
structure Collected (live : Node → Prop) (m m' : Machine) : Prop where
  thunks : Swept (fun id => live (.Thunk id)) m.arena m'.arena m'.freeThunks
  environments :
    Swept (fun id => live (.Environment id)) m.environments m'.environments m'.freeEnvironments
  rest : ∃ remaining, m' = { m with
    arena := m'.arena, freeThunks := m'.freeThunks
    environments := m'.environments, freeEnvironments := m'.freeEnvironments
    allocationDebt := 0, remaining }

/-- The marking begins with the roots. -/
theorem Marking.begin (htidy : marks.Tidy)
    (hmarked : Marked ⟨[], []⟩ nodes marks) : Marking m (· ∈ nodes) marks := by
  have hboth (n : Node) : n ∈ marks.marked ↔ n ∈ marks.pending := by
    rw [hmarked.marked, hmarked.pending]
    simp
  refine ⟨htidy, .begin (fun n hn => hn.2 ((hboth n).1 hn.1)) fun n => ?_, fun n hn hnot => ?_⟩
  · rw [hmarked.pending]
    simp
  · exact absurd ((hboth n).1 hn) hnot

theorem Machine.Occupied.thunk {id : ThunkId} (h : m.Occupied (.Thunk id)) :
    ∃ thunk, m.arena[id]? = some (some thunk) := by
  obtain ⟨nodes, hnodes⟩ := Machine.occupied_iff.1 h
  obtain ⟨thunk, hthunk, -⟩ := Option.map_eq_some_iff.1 hnodes
  exact ⟨thunk, Option.join_eq_some_iff.1 hthunk⟩

theorem Machine.Occupied.environment {id : EnvId} (h : m.Occupied (.Environment id)) :
    ∃ environment, m.environments[id]? = some (some environment) := by
  obtain ⟨nodes, hnodes⟩ := Machine.occupied_iff.1 h
  obtain ⟨environment, henvironment, -⟩ := Option.map_eq_some_iff.1 hnodes
  exact ⟨environment, Option.join_eq_some_iff.1 henvironment⟩

/-- A collection fails only for want of steps, or where a node that is reachable is missing. -/
theorem collect_spec (m : Machine) (current : ThunkId) (frames : List Frame) :
    Finishes (collect current frames) m
      (fun _ m' => Collected (m.Live current frames) m m')
      (fun err _ => err = exhausted ∨ ∃ n, m.Live current frames n ∧ ¬m.Occupied n) := by
  refine .get_bind (.bind ((markAll_spec ⟨List.nodup_nil, by simp⟩).mono (fun _ _ h => h) ?_) ?_)
  · rintro err _ (herr | ⟨n, hn, hvacant⟩)
    · exact .inl herr
    · exact .inr ⟨n, .of_start hn, hvacant⟩
  rintro marks₁ _ ⟨⟨r, rfl⟩, hmarked, htidy⟩
  refine .get_bind (.bind (markLoop_spec _ (.begin htidy hmarked)) ?_)
  rintro marks₂ _ ⟨⟨r₂, rfl⟩, hmarking, hpending⟩
  have hlive (n : Node) : n ∈ marks₂.marked ↔ m.Live current frames n := by
    have hsearch := hmarking.search.done_iff (x := n) (by simp [hpending])
    simp only [hpending, List.not_mem_nil, not_false_iff, and_true] at hsearch
    exact hsearch
  have hoccupied (n : Node) (hn : m.Live current frames n) : m.Occupied n :=
    hmarking.occupied n ((hlive n).2 hn) (by simp [hpending])
  refine .bind ((ticks_spent _).mono (fun _ _ h => h) fun _ _ h => .inl h) ?_
  rintro _ _ ⟨r₃, rfl⟩
  refine .bind ((ticks_spent _).mono (fun _ _ h => h) fun _ _ h => .inl h) ?_
  rintro _ _ ⟨r₄, rfl⟩
  refine .of_modify ⟨?_, ?_, r₄, rfl⟩
  · exact sweep_swept (fun id => by rw [decide_eq_true_iff]; exact hlive _)
      fun id hid => (hoccupied _ hid).thunk
  · exact sweep_swept (fun id => by rw [decide_eq_true_iff]; exact hlive _)
      fun id hid => (hoccupied _ hid).environment

theorem Collected.thunkAt_of_live {live : Node → Prop} (h : Collected live m m') {id : ThunkId}
    (hid : live (.Thunk id)) : m'.thunkAt id = m.thunkAt id := by
  obtain ⟨a, ha, ha'⟩ := h.thunks.kept id hid
  rw [Machine.thunkAt, Machine.thunkAt, ha, ha']

theorem Collected.environmentAt_of_live {live : Node → Prop} (h : Collected live m m') {id : EnvId}
    (hid : live (.Environment id)) : m'.environmentAt id = m.environmentAt id := by
  obtain ⟨a, ha, ha'⟩ := h.environments.kept id hid
  rw [Machine.environmentAt, Machine.environmentAt, ha, ha']

theorem Collected.edgesAt_of_live {live : Node → Prop} (h : Collected live m m')
    (hnode : live node) : m'.edgesAt node = m.edgesAt node := by
  cases node with
  | Thunk id => rw [Machine.edgesAt, Machine.edgesAt, h.thunkAt_of_live hnode]
  | Environment id => rw [Machine.edgesAt, Machine.edgesAt, h.environmentAt_of_live hnode]

/-- A live node stays occupied. -/
theorem Collected.occupied {live : Node → Prop} (h : Collected live m m') (hnode : live node) :
    m'.Occupied node := by
  cases node with
  | Thunk id =>
    obtain ⟨a, -, ha⟩ := h.thunks.kept id hnode
    simp [Machine.Occupied, Machine.edgesAt, Machine.thunkAt, ha]
  | Environment id =>
    obtain ⟨a, -, ha⟩ := h.environments.kept id hnode
    simp [Machine.Occupied, Machine.edgesAt, Machine.environmentAt, ha]

/-- The roots are left as they were. -/
theorem Collected.roots_eq {live : Node → Prop} (h : Collected live m m') :
    m'.roots current frames = m.roots current frames := by
  obtain ⟨r, hr⟩ := h.rest
  rw [hr]
  rfl

/-- What is live stays live, and nothing else is. -/
theorem Collected.live_iff (h : Collected (m.Live current frames) m m') :
    m'.Live current frames node ↔ m.Live current frames node := by
  constructor
  · refine fun hnode => hnode.induct (fun s hs => .of_start (h.roots_eq ▸ hs)) ?_
    rintro x y hx ⟨nodes, hnodes, hy⟩
    exact hx.tail ⟨nodes, (h.edgesAt_of_live hx).symm.trans hnodes, hy⟩
  · refine fun hnode => (hnode.induct (P := fun n => m.Live current frames n ∧
      m'.Live current frames n) (fun s hs => ⟨.of_start hs, .of_start (h.roots_eq.symm ▸ hs)⟩) ?_).2
    rintro x y ⟨hx, hx'⟩ ⟨nodes, hnodes, hy⟩
    exact ⟨hx.tail ⟨nodes, hnodes, hy⟩,
      hx'.tail ⟨nodes, (h.edgesAt_of_live hx).trans hnodes, hy⟩⟩

/-- A second sweep changes nothing. -/
theorem Swept.again {α : Type} {live : Nat → Prop} {slots slots' slots'' : List (Option α)}
    {free free' : List Nat} (h : Swept live slots slots' free)
    (h' : Swept live slots' slots'' free') : slots'' = slots' ∧ free' = free := by
  have hslots : slots'' = slots' := by
    refine List.ext_getElem? fun id => ?_
    by_cases hid : live id
    · obtain ⟨a, ha, ha'⟩ := h'.kept id hid
      rw [ha, ha']
    · by_cases hlt : id < slots'.length
      · rw [h'.emptied id hlt hid, h.emptied id (h.length ▸ hlt) hid]
      · rw [List.getElem?_eq_none (Nat.le_of_not_lt hlt),
          List.getElem?_eq_none (h'.length ▸ Nat.le_of_not_lt hlt)]
  exact ⟨hslots, by rw [h.free, h'.free, hslots]⟩

/-- **A collection keeps exactly what is reachable from the roots**, and another one right after it
changes nothing. -/
theorem collect_exact (h : collect current frames m = .ok () m') :
    Collected (m.Live current frames) m m' ∧
      (∀ node, m'.Live current frames node ↔ m.Live current frames node) ∧
      ∀ m'', collect current frames m' = .ok () m'' → Spent m' m'' := by
  have hm' : Collected (m.Live current frames) m m' := by
    have hspec := collect_spec m current frames
    rw [Finishes, h] at hspec
    exact hspec
  refine ⟨hm', fun node => hm'.live_iff, fun m'' h' => ?_⟩
  have hm'' : Collected (m'.Live current frames) m' m'' := by
    have hspec := collect_spec m' current frames
    rw [Finishes, h'] at hspec
    exact hspec
  have hlive : m'.Live current frames = m.Live current frames :=
    funext fun node => propext hm'.live_iff
  rw [hlive] at hm''
  obtain ⟨harena, hthunks⟩ := hm'.thunks.again hm''.thunks
  obtain ⟨henvironments, hfree⟩ := hm'.environments.again hm''.environments
  obtain ⟨r, hr⟩ := hm''.rest
  obtain ⟨r', hr'⟩ := hm'.rest
  refine ⟨r, ?_⟩
  rw [hr, harena, hthunks, henvironments, hfree, hr']

/-- The machine of the example: of two thunks, one is garbage. -/
def littered : Machine :=
  ⟨[some (.Ready .Erased), some (.Ready .Erased)], [some ⟨none, []⟩], [], [], [], [], 0, [], 7⟩

theorem collect_exact_garbage :
    Collected (littered.Live 0 []) littered
      { littered with arena := [some (.Ready .Erased), none], freeThunks := [1], remaining := 0 } :=
  (collect_exact rfl).1

end TeamyBend.Runtime.Evaluator
