/-
# The graph that an adoption accepts

A child names its parent, and its result goes to cells of the parent that no other result goes to
(`Parented`).  The scan of a record finds its children, and each of them is new, so what is adopted
below a root is a finite tree (`AdoptedTree`), and above a ready child a chain (`AdoptedChain`).
-/
import TeamyBend.Runtime.AdoptionChecks

namespace TeamyBend.Runtime.Tasks

open BlockHeap (Heap tbSpan)
open Library (Finishes)

variable {u : Setting} {m₀ m m' m₁ m₂ : Machine} {h : Heap} {task : Nat}
  {record parent child : Record} {children : List Record}

/-! ## 1. Results and their cells -/

/-- A cell that the result of a task goes to, in its parent. -/
def Record.Spans (r : Record) (i : Nat) : Prop := r.index ≤ i ∧ i < r.index + r.width

/-- The cell holds a term that its block owns. -/
def Owned (h : Heap) (loc : Nat) : Prop := tbCellOwned h loc = .ok true

/-- A child and the task that waits for it. -/
structure Edge (h : Heap) (parent child : Record) : Prop where
  names : h.cells (child.loc + child.arity) = parent.task
  inside : child.index + child.width ≤ parent.arity
  covers : ∀ i, child.Spans i → h.cells (parent.loc + i) = termHole ∨
    i = child.index ∧ h.cells (parent.loc + i) = child.task

/-- A task with the children that it waits for. -/
structure Parented (h : Heap) (parent : Record) (children : List Record) : Prop where
  edges : ∀ child ∈ children, Edge h parent child
  apart : children.Pairwise fun child other => ∀ i, child.Spans i → ¬other.Spans i
  reserved : ∀ i, parent.reserved i = true ↔ ∃ child ∈ children, child.Spans i
  present : ∀ i < parent.arity, Owned h (parent.loc + i) → parent.reserved i = false →
    h.cells (parent.loc + i) ≠ termHole
  count : children.length = parent.remaining

/-- A record before any cell was reserved. -/
def Record.found (r : Record) : Record := { r with reserved := fun _ => false }

/-- The children of a record of a list, as they were found. -/
def childrenOf (records : List Record) (place : Nat) : List Record :=
  (records.map Record.found).filter (·.parent = some place)

theorem reserveSpan_spec {loc i : Nat} {js : List Nat} {reserved reserved' : Nat → Bool}
    (hok : reserveSpan h loc i js reserved = .ok reserved') :
    (∀ j ∈ js, reserved (i + j) = false ∧ (j ≠ 0 → h.cells (loc + i + j) = termHole)) ∧
      ∀ k, reserved' k = true ↔ reserved k = true ∨ ∃ j ∈ js, k = i + j := by
  induction js generalizing reserved with
  | nil =>
    cases hok
    simp
  | cons j js ih =>
    unfold reserveSpan at hok
    split at hok
    · cases hok
    · rename_i hfree
      obtain ⟨hreserved, hhole⟩ := not_or.1 hfree
      obtain ⟨hrest, hiff⟩ := ih hok
      refine ⟨fun j' hj' => ?_, fun k => ?_⟩
      · rcases List.mem_cons.1 hj' with rfl | hj'
        · refine ⟨by simpa using hreserved, fun hne => ?_⟩
          by_contra hcell
          exact hhole ⟨hne, hcell⟩
        · obtain ⟨hfalse, hcell⟩ := hrest j' hj'
          refine ⟨?_, hcell⟩
          by_cases heq : i + j' = i + j
          · rw [heq, Function.update_self] at hfalse
            cases hfalse
          · rwa [Function.update_of_ne heq] at hfalse
      · rw [hiff k]
        by_cases heq : k = i + j
        · subst heq
          simp
        · rw [Function.update_of_ne heq]
          simp [heq]

theorem payloadReady_spec {loc : Nat} {is : List Nat} (hok : payloadReady h loc is = .ok ()) :
    ∀ i ∈ is, Owned h (loc + i) →
      h.cells (loc + i) ≠ termHole ∧ termTag (h.cells (loc + i)) ≠ tagTsk := by
  induction is with
  | nil => simp
  | cons i is ih =>
    unfold payloadReady at hok
    intro j hj hown
    cases howned : tbCellOwned h (loc + i) with
    | error message =>
      rw [howned] at hok
      cases hok
    | ok owned =>
      rw [howned] at hok
      cases owned with
      | false =>
        rcases List.mem_cons.1 hj with rfl | hj
        · exact absurd (howned.symm.trans hown) (by simp)
        · exact ih hok j hj hown
      | true =>
        dsimp only at hok
        split at hok
        · cases hok
        · rename_i hhole
          split at hok
          · cases hok
          · rename_i htag
            rcases List.mem_cons.1 hj with rfl | hj
            · exact ⟨hhole, htag⟩
            · exact ih hok j hj hown

/-- A task that waits for nothing has its arguments. -/
theorem Parented.ready (hready : record.remaining = 0)
    (hreserved : record.reserved = fun _ => false)
    (hok : tbTaskPayloadReady h record.loc record.arity = .ok ()) : Parented h record [] where
  edges := by simp
  apart := .nil
  reserved := by simp [hreserved]
  present i hi hown _ := (payloadReady_spec hok i (List.mem_range.2 hi) hown).1
  count := hready.symm

/-! ## 2. The children of a record -/

/-- Children that were found. -/
structure Children (u : Setting) (place : Nat) (m m' : Machine) (children : List Record) :
    Prop where
  checked : Checked u m m'
  recorded : ∀ child ∈ children, Recorded u m.heap child
  parent : ∀ child ∈ children, child.parent = some place
  found : ∀ child ∈ children, child.found = child
  absent : ∀ child ∈ children, child.loc ∉ m.table (tbTaskHash child.loc)
  present : ∀ child ∈ children, child.loc ∈ m'.table (tbTaskHash child.loc)
  distinct : (children.map Record.loc).Nodup
  tasks : m'.tasks = m.tasks + children.length
  limit : m.tasks ≤ u.maxTasks → m'.tasks ≤ u.maxTasks

theorem Children.nil {place : Nat} (hm : Checked u m m') (htasks : m'.tasks = m.tasks) :
    Children u place m m' [] :=
  ⟨hm, by simp, by simp, by simp, by simp, by simp, by simp, htasks, fun hle => htasks ▸ hle⟩

/-- One more child is found. -/
theorem Children.concat {place : Nat} (hs : Children u place m m₁ children)
    (he : Entered u m₁ m₂ child) :
    Children u place m m₂ (children ++ [{ child with parent := some place }]) where
  checked := hs.checked.trans he.checked
  recorded c hc := by
    rcases List.mem_append.1 hc with hc | hc
    · exact hs.recorded c hc
    · obtain rfl := List.mem_singleton.1 hc
      have := he.recorded
      rw [hs.checked.heap] at this
      exact ⟨this.tail, this.arity, this.width, this.index, this.remaining, this.bounded⟩
  parent c hc := by
    rcases List.mem_append.1 hc with hc | hc
    · exact hs.parent c hc
    · obtain rfl := List.mem_singleton.1 hc
      rfl
  found c hc := by
    rcases List.mem_append.1 hc with hc | hc
    · exact hs.found c hc
    · obtain rfl := List.mem_singleton.1 hc
      simp [Record.found, he.reserved]
  absent c hc := by
    rcases List.mem_append.1 hc with hc | hc
    · exact hs.absent c hc
    · obtain rfl := List.mem_singleton.1 hc
      exact fun hmem => he.absent (hs.checked.table _ hmem)
  present c hc := by
    rcases List.mem_append.1 hc with hc | hc
    · exact he.checked.table _ (hs.present c hc)
    · obtain rfl := List.mem_singleton.1 hc
      exact he.present
  distinct := by
    rw [List.map_append]
    refine List.nodup_append.2 ⟨hs.distinct, by simp, fun loc hloc loc' hloc' heq => ?_⟩
    obtain ⟨c, hc, rfl⟩ := List.mem_map.1 hloc
    obtain rfl := List.mem_singleton.1 hloc'
    have hmem := hs.present c hc
    rw [heq] at hmem
    exact he.absent hmem
  tasks := by
    rw [he.tasks, hs.tasks]
    simp
    omega
  limit _ := he.limit

/-- A child is found in a cell that is not reserved. -/
theorem adoptChild_spec (hm : Checked u m₀ m) {place i : Nat} (hi : i < record.arity)
    (hvalue : m.heap.cells (record.loc + i) = task) :
    Finishes (adoptChild u place i task record) m
      (fun r m' => ∃ child reserved, r = ({ record with reserved },
          { child with parent := some place }) ∧ Entered u m m' child ∧ Edge m.heap record child ∧
        child.index = i ∧ (∀ k, child.Spans k → record.reserved k = false) ∧
        ∀ k, reserved k = true ↔ record.reserved k = true ∨ child.Spans k)
      (Refused u m₀) := by
  refine .bind (tbTaskRecord_spec hm task) fun child m₁ hchild => ?_
  obtain ⟨htask, hentered⟩ := hchild
  have hm₁ := hm.trans hentered.checked
  refine .get_bind ?_
  refine .bind (check_spec hm₁ _) fun tail s htail => ?_
  obtain ⟨htail, rfl⟩ := htail
  refine .ite (fun _ => refused_fail hm₁ _) fun hnames => ?_
  refine .ite (fun _ => refused_fail hm₁ _) fun hwidth => ?_
  refine .bind (check_spec hm₁ _) fun reserved s hreserved => ?_
  obtain ⟨hreserved, rfl⟩ := hreserved
  obtain ⟨hnames, hindex⟩ := not_or.1 hnames
  rw [not_not] at hnames hindex
  rw [hentered.checked.heap] at htail hnames hreserved
  obtain rfl : child.loc + child.arity = tail := by
    have := hentered.recorded.tail
    rw [htask] at this
    exact Except.ok.inj (this.symm.trans htail)
  obtain ⟨hspan, hiff⟩ := reserveSpan_spec hreserved
  refine .pure ⟨child, reserved, rfl, hentered, ⟨hnames, by omega, ?_⟩, hindex, ?_, ?_⟩
  · rintro k ⟨hle, hlt⟩
    by_cases hk : k = i
    · subst hk
      exact .inr ⟨hindex.symm, hvalue.trans htask.symm⟩
    · have := (hspan (k - i) (List.mem_range.2 (by omega))).2 (by omega)
      rw [show termLoc record.task + i + (k - i) = record.loc + k by
        unfold Record.loc; omega] at this
      exact .inl this
  · rintro k ⟨hle, hlt⟩
    have := (hspan (k - i) (List.mem_range.2 (by omega))).1
    rwa [show i + (k - i) = k by omega] at this
  · intro k
    rw [hiff k]
    refine or_congr_right ⟨?_, ?_⟩
    · rintro ⟨j, hj, rfl⟩
      have := List.mem_range.1 hj
      exact ⟨by omega, by omega⟩
    · rintro ⟨hle, hlt⟩
      exact ⟨k - i, List.mem_range.2 (by omega), by omega⟩

/-- The cells of a record up to a place: what `Parented` says of them. -/
structure Scanned (h : Heap) (parent : Record) (children : List Record) (i : Nat) : Prop where
  edges : ∀ child ∈ children, Edge h parent child
  apart : children.Pairwise fun child other => ∀ i, child.Spans i → ¬other.Spans i
  reserved : ∀ i, parent.reserved i = true ↔ ∃ child ∈ children, child.Spans i
  present : ∀ j < i, Owned h (parent.loc + j) → parent.reserved j = false →
    h.cells (parent.loc + j) ≠ termHole

/-- A cell that has no child. -/
theorem Scanned.skip {i : Nat} (hs : Scanned h parent children i)
    (hcell : Owned h (parent.loc + i) → parent.reserved i = false →
      h.cells (parent.loc + i) ≠ termHole) :
    Scanned h parent children (i + 1) where
  edges := hs.edges
  apart := hs.apart
  reserved := hs.reserved
  present j hj hown hfree := by
    rcases Nat.lt_succ_iff_lt_or_eq.1 hj with hj | rfl
    · exact hs.present j hj hown hfree
    · exact hcell hown hfree

/-- A cell that has a child. -/
theorem Scanned.concat {i place : Nat} {reserved : Nat → Bool} (hs : Scanned h parent children i)
    (hcell : h.cells (parent.loc + i) ≠ termHole) (hedge : Edge h parent child)
    (hfree : ∀ k, child.Spans k → parent.reserved k = false)
    (hreserved : ∀ k, reserved k = true ↔ parent.reserved k = true ∨ child.Spans k) :
    Scanned h { parent with reserved } (children ++ [{ child with parent := some place }])
      (i + 1) where
  edges c hc := by
    rcases List.mem_append.1 hc with hc | hc
    · have := hs.edges c hc
      exact ⟨this.names, this.inside, this.covers⟩
    · obtain rfl := List.mem_singleton.1 hc
      exact ⟨hedge.names, hedge.inside, hedge.covers⟩
  apart := by
    refine List.pairwise_append.2 ⟨hs.apart, by simp, fun c hc c' hc' k hk hk' => ?_⟩
    obtain rfl := List.mem_singleton.1 hc'
    have hold := (hs.reserved k).2 ⟨c, hc, hk⟩
    rw [hfree k hk'] at hold
    cases hold
  reserved k := by
    rw [hreserved k, hs.reserved k]
    simp only [List.mem_append, List.mem_singleton, or_and_right, exists_or, exists_eq_left]
    rfl
  present j hj hown hnot := by
    have hold : parent.reserved j = false := by
      cases hval : parent.reserved j with
      | false => rfl
      | true => exact absurd ((hreserved j).2 (.inl hval)) (by simpa using hnot)
    rcases Nat.lt_succ_iff_lt_or_eq.1 hj with hj | rfl
    · exact hs.present j hj hown hold
    · exact hcell

/-- The cells of a record are scanned, by induction on those that are left. -/
theorem adoptCells_spec {place n i : Nat} (hm₀ : Checked u m₀ m)
    (hcount : i + n = record.arity) (hs : Children u place m m₁ children)
    (hc : Scanned m.heap record children i) :
    Finishes (adoptCells u place (List.range' i n) record children) m₁
      (fun r m' => ∃ reserved, r.1 = { record with reserved } ∧ Children u place m m' r.2 ∧
        Scanned m.heap r.1 r.2 record.arity)
      (Refused u m₀) := by
  induction n generalizing i record children m₁ with
  | zero =>
    obtain rfl : i = record.arity := hcount
    exact .pure ⟨record.reserved, rfl, hs, hc⟩
  | succ n ih =>
    have hm₁ := hm₀.trans hs.checked
    rw [List.range'_succ]
    unfold adoptCells
    refine .get_bind ?_
    rw [hs.checked.heap]
    refine .ite (fun hreserved => ?_) fun hreserved => ?_
    · exact ih (by omega) hs (hc.skip fun _ hfree => by simp [hreserved] at hfree)
    refine .bind (check_spec hm₁ _) fun owned s howned => ?_
    obtain ⟨howned, rfl⟩ := howned
    refine .ite (fun hraw => ?_) fun _ => ?_
    · refine ih (by omega) hs (hc.skip fun hown _ => ?_)
      subst hraw
      exact absurd (howned.symm.trans hown) (by simp)
    refine .ite (fun _ => refused_fail hm₁ _) fun hhole => ?_
    refine .ite (fun _ => ?_) fun _ => ih (by omega) hs (hc.skip fun _ _ => hhole)
    have hvalue : s.heap.cells (record.loc + i) = m.heap.cells (termLoc record.task + i) := by
      rw [hs.checked.heap]
      rfl
    refine .bind (adoptChild_spec hm₁ (by omega) hvalue) fun r m₂ hchild => ?_
    obtain ⟨child, reserved, rfl, hentered, hedge, -, hfree, hiff⟩ := hchild
    rw [hs.checked.heap] at hedge
    refine (ih (by dsimp only; omega) (hs.concat hentered)
      (hc.concat hhole hedge hfree hiff)).imp fun r m' hr => ?_
    obtain ⟨reserved', hr, hrest⟩ := hr
    exact ⟨reserved', hr, hrest⟩

/-- A record is scanned: its children are new, and they have their places in it. -/
theorem adoptRecord_spec {place : Nat} (hm₀ : Checked u m₀ m)
    (hreserved : record.found = record) :
    Finishes (adoptRecord u place record) m
      (fun r m' => ∃ reserved, r.1 = { record with reserved } ∧ Children u place m m' r.2 ∧
        Parented m.heap r.1 r.2)
      (Refused u m₀) := by
  have hnone : record.reserved = fun _ => false := (congrArg Record.reserved hreserved).symm
  refine .bind (tbTick_spec hm₀) fun _ m₁ hticked => ?_
  obtain ⟨hticked, -, htasks⟩ := hticked
  have hstart : Children u place m m₁ [] := .nil hticked htasks
  refine .ite (fun hready => ?_) fun hwaiting => ?_
  · refine .bind (.get_bind (check_spec (hm₀.trans hticked) _)) fun _ s hok => ?_
    obtain ⟨hok, rfl⟩ := hok
    rw [hticked.heap] at hok
    exact .pure ⟨record.reserved, rfl, hstart, .ready hready hnone hok⟩
  · have hscanned : Scanned m.heap record [] 0 := ⟨by simp, .nil, by simp [hnone], by simp⟩
    rw [List.range_eq_range']
    refine .bind (adoptCells_spec hm₀ (Nat.zero_add _) hstart hscanned) fun r m₂ hr => ?_
    obtain ⟨record', children⟩ := r
    obtain ⟨reserved, rfl, hchildren, hcells⟩ := hr
    refine .ite (fun _ => refused_fail (hm₀.trans hchildren.checked) _) fun hcount => ?_
    exact .pure ⟨reserved, rfl, hchildren, hcells.edges, hcells.apart, hcells.reserved,
      hcells.present, not_not.1 hcount⟩

/-! ## 3. A tree -/

/-- **A tree of tasks**, in the order in which they were found. -/
structure AdoptedTree (u : Setting) (h : Heap) (task : Nat) (records : List Record) : Prop where
  recorded : ∀ record ∈ records, Recorded u h record
  distinct : (records.map Record.loc).Nodup
  root : ∃ root, records.head? = some root ∧ root.task = task ∧ root.parent = none ∧
    h.cells (root.loc + root.arity) = termHole
  below : ∀ k record, records[k]? = some record → 0 < k → ∃ p < k, record.parent = some p
  parented : ∀ p record, records[p]? = some record → Parented h record (childrenOf records p)

/-- A tree that is scanned up to a place. -/
structure Growing (u : Setting) (m : Machine) (task : Nat) (scanned pending : List Record) :
    Prop where
  recorded : ∀ record ∈ scanned ++ pending, Recorded u m.heap record
  distinct : ((scanned ++ pending).map Record.loc).Nodup
  listed : ∀ record ∈ scanned ++ pending, record.loc ∈ m.table (tbTaskHash record.loc)
  found : ∀ record ∈ pending, record.found = record
  root : ∃ root, (scanned ++ pending).head? = some root ∧ root.task = task ∧
    root.parent = none ∧ m.heap.cells (root.loc + root.arity) = termHole
  below : ∀ k record, (scanned ++ pending)[k]? = some record → 0 < k →
    ∃ p < k, p < scanned.length ∧ record.parent = some p
  parented : ∀ p record, scanned[p]? = some record →
    Parented m.heap record (childrenOf (scanned ++ pending) p)
  counted : (scanned ++ pending).length ≤ m.tasks
  limit : m.tasks ≤ u.maxTasks

theorem childrenOf_append (records others : List Record) (place : Nat) :
    childrenOf (records ++ others) place = childrenOf records place ++ childrenOf others place := by
  simp [childrenOf]

theorem childrenOf_found {reserved : Nat → Bool} (records others : List Record) (place : Nat) :
    childrenOf (records ++ { record with reserved } :: others) place =
      childrenOf (records ++ record :: others) place := by
  simp [childrenOf, Record.found]

theorem childrenOf_eq_nil {records : List Record} {place : Nat}
    (hnone : ∀ record ∈ records, record.parent ≠ some place) : childrenOf records place = [] := by
  unfold childrenOf
  rw [List.filter_eq_nil_iff]
  intro c hc
  obtain ⟨record, hrecord, rfl⟩ := List.mem_map.1 hc
  simp [Record.found, hnone record hrecord]

/-- The children of one scan. -/
theorem Children.childrenOf {place : Nat} (hs : Children u place m m' children) :
    childrenOf children place = children ∧ ∀ p ≠ place, childrenOf children p = [] := by
  constructor
  · unfold Tasks.childrenOf
    rw [List.map_congr_left hs.found, List.map_id', List.filter_eq_self]
    exact fun c hc => by simpa using hs.parent c hc
  · intro p hp
    refine childrenOf_eq_nil fun c hc => ?_
    rw [hs.parent c hc]
    exact fun heq => hp (Option.some.inj heq).symm

/-- A record keeps its place when its cells are reserved. -/
theorem getElem?_scanned {reserved : Nat → Bool} {scanned pending : List Record} {k : Nat}
    {r : Record} (hr : (scanned ++ { record with reserved } :: pending)[k]? = some r) :
    ∃ old, (scanned ++ record :: pending)[k]? = some old ∧
      (r = old ∨ old = record ∧ r = { record with reserved }) := by
  rcases Nat.lt_trichotomy k scanned.length with hk | rfl | hk
  · rw [List.getElem?_append_left hk] at hr
    exact ⟨r, by rwa [List.getElem?_append_left hk], .inl rfl⟩
  · rw [List.getElem?_append_right (Nat.le_refl _), Nat.sub_self] at hr
    obtain rfl := Option.some.inj hr
    exact ⟨record, by simp, .inr ⟨rfl, rfl⟩⟩
  · rw [List.getElem?_append_right hk.le] at hr
    obtain ⟨n, hn⟩ : ∃ n, k - scanned.length = n + 1 := ⟨k - scanned.length - 1, by omega⟩
    rw [hn, List.getElem?_cons_succ] at hr
    refine ⟨r, ?_, .inl rfl⟩
    rw [List.getElem?_append_right hk.le, hn, List.getElem?_cons_succ]
    exact hr

/-- One record is scanned. -/
theorem Growing.step {scanned pending : List Record} {reserved : Nat → Bool}
    (hg : Growing u m task scanned (record :: pending))
    (hs : Children u scanned.length m m' children)
    (hp : Parented m.heap { record with reserved } children) :
    Growing u m' task (scanned ++ [{ record with reserved }]) (pending ++ children) := by
  have hall : scanned ++ [{ record with reserved }] ++ (pending ++ children) =
      (scanned ++ { record with reserved } :: pending) ++ children := by simp
  have hmem : ∀ r ∈ scanned ++ { record with reserved } :: pending,
      ∃ old ∈ scanned ++ record :: pending,
        r = old ∨ old = record ∧ r = { record with reserved } := by
    intro r hr
    obtain ⟨k, hk⟩ := List.mem_iff_getElem?.1 hr
    obtain ⟨old, hold, hcases⟩ := getElem?_scanned hk
    exact ⟨old, List.mem_of_getElem? hold, hcases⟩
  have hlocs : (scanned ++ { record with reserved } :: pending).map Record.loc =
      (scanned ++ record :: pending).map Record.loc := by simp [Record.loc]
  have hearlier : ∀ r ∈ scanned ++ record :: pending, r.parent ≠ some scanned.length := by
    intro r hr hparent
    obtain ⟨k, hk⟩ := List.mem_iff_getElem?.1 hr
    rcases Nat.eq_zero_or_pos k with rfl | hpos
    · obtain ⟨root, hroot, -, hnone, -⟩ := hg.root
      rw [List.head?_eq_getElem?, hk] at hroot
      obtain rfl := Option.some.inj hroot
      rw [hnone] at hparent
      cases hparent
    · obtain ⟨p, -, hp, hsome⟩ := hg.below k r hk hpos
      rw [hsome] at hparent
      exact Nat.lt_irrefl _ (Option.some.inj hparent ▸ hp)
  exact {
    recorded := by
      rw [hall, hs.checked.heap]
      intro r hr
      rcases List.mem_append.1 hr with hr | hr
      · obtain ⟨old, hold, rfl | ⟨rfl, rfl⟩⟩ := hmem r hr
        · exact hg.recorded r hold
        · have := hg.recorded old hold
          exact ⟨this.tail, this.arity, this.width, this.index, this.remaining, this.bounded⟩
      · exact hs.recorded r hr
    distinct := by
      rw [hall, List.map_append, hlocs]
      refine List.nodup_append.2 ⟨hg.distinct, hs.distinct, fun loc hloc loc' hloc' heq => ?_⟩
      obtain ⟨r, hr, rfl⟩ := List.mem_map.1 hloc
      obtain ⟨c, hc, rfl⟩ := List.mem_map.1 hloc'
      have := hg.listed r hr
      rw [heq] at this
      exact hs.absent c hc this
    listed := by
      rw [hall]
      intro r hr
      rcases List.mem_append.1 hr with hr | hr
      · obtain ⟨old, hold, rfl | ⟨rfl, rfl⟩⟩ := hmem r hr
        · exact hs.checked.table _ (hg.listed r hold)
        · exact hs.checked.table _ (hg.listed old hold)
      · exact hs.present r hr
    found := by
      intro r hr
      rcases List.mem_append.1 hr with hr | hr
      · exact hg.found r (List.mem_cons_of_mem _ hr)
      · exact hs.found r hr
    root := by
      rw [hall, hs.checked.heap]
      obtain ⟨root, hroot, htask, hparent, htail⟩ := hg.root
      cases scanned with
      | nil =>
        obtain rfl := Option.some.inj hroot
        exact ⟨_, rfl, htask, hparent, htail⟩
      | cons first rest => exact ⟨root, hroot, htask, hparent, htail⟩
    below := by
      rw [hall]
      intro k r hr hk
      by_cases hlt : k < (scanned ++ { record with reserved } :: pending).length
      · rw [List.getElem?_append_left hlt] at hr
        obtain ⟨old, hold, rfl | ⟨rfl, rfl⟩⟩ := getElem?_scanned hr
        · obtain ⟨p, hpk, hplt, hparent⟩ := hg.below k r hold hk
          exact ⟨p, hpk, by simp; omega, hparent⟩
        · obtain ⟨p, hpk, hplt, hparent⟩ := hg.below k old hold hk
          exact ⟨p, hpk, by simp; omega, hparent⟩
      · rw [List.getElem?_append_right (Nat.le_of_not_lt hlt)] at hr
        have hparent := hs.parent r (List.mem_of_getElem? hr)
        simp at hlt
        exact ⟨scanned.length, by omega, by simp, hparent⟩
    parented := by
      rw [hall, hs.checked.heap]
      intro p r hr
      rw [childrenOf_append, childrenOf_found]
      rcases Nat.lt_or_ge p scanned.length with hp' | hp'
      · rw [List.getElem?_append_left hp'] at hr
        rw [hs.childrenOf.2 p hp'.ne, List.append_nil]
        exact hg.parented p r hr
      · obtain rfl : p = scanned.length := by
          have := (List.getElem?_eq_some_iff.1 hr).1
          simp at this
          omega
        rw [List.getElem?_append_right (Nat.le_refl _), Nat.sub_self] at hr
        obtain rfl := Option.some.inj hr
        rw [hs.childrenOf.1, childrenOf_eq_nil hearlier, List.nil_append]
        exact hp
    counted := by
      have := hg.counted
      rw [hs.tasks, hall]
      simp at this ⊢
      omega
    limit := hs.limit hg.limit }

/-- A tree that is scanned to its end. -/
theorem Growing.adopted {scanned : List Record} (hg : Growing u m task scanned []) :
    AdoptedTree u m.heap task scanned := by
  have hnil : scanned ++ [] = scanned := List.append_nil _
  exact {
    recorded := hnil ▸ hg.recorded
    distinct := hnil ▸ hg.distinct
    root := hnil ▸ hg.root
    below := fun k r hr hk => by
      obtain ⟨p, hpk, -, hparent⟩ := hg.below k r (hnil.symm ▸ hr) hk
      exact ⟨p, hpk, hparent⟩
    parented := fun p r hr => by
      have := hg.parented p r hr
      rwa [hnil] at this }

/-- The scan of a tree, by induction on the records that may still be made. -/
theorem adoptTree_spec {fuel : Nat} {scanned pending : List Record} (hm₀ : Checked u m₀ m)
    (hfuel : u.maxTasks ≤ fuel + scanned.length) (hg : Growing u m task scanned pending) :
    Finishes (adoptTree u fuel scanned pending) m
      (fun records m' => Checked u m m' ∧ AdoptedTree u m.heap task records) (Refused u m₀) := by
  induction fuel generalizing scanned pending m with
  | zero =>
    cases pending with
    | nil => exact .pure ⟨.refl u m, hg.adopted⟩
    | cons record pending =>
      have := hg.counted
      have := hg.limit
      simp at *
      omega
  | succ fuel ih =>
    cases pending with
    | nil => exact .pure ⟨.refl u m, hg.adopted⟩
    | cons record pending =>
      refine .bind (adoptRecord_spec hm₀ (hg.found record List.mem_cons_self)) fun r m₁ hr => ?_
      obtain ⟨record', children⟩ := r
      obtain ⟨reserved, rfl, hchildren, hparented⟩ := hr
      refine (ih (hm₀.trans hchildren.checked) ?_ (hg.step hchildren hparented)).imp ?_
      · simp
        omega
      · rintro records m' ⟨hchecked, hadopted⟩
        rw [hchildren.checked.heap] at hadopted
        exact ⟨hchildren.checked.trans hchecked, hadopted⟩

/-! ## 4. A chain -/

/-- **A chain of tasks**, from a ready child to a task whose result is not waited for. -/
structure AdoptedChain (u : Setting) (h : Heap) (task : Nat) (records : List Record) : Prop where
  recorded : ∀ record ∈ records, Recorded u h record
  distinct : (records.map Record.loc).Nodup
  child : ∃ child, records.head? = some child ∧ child.task = task ∧ child.remaining = 0
  last : ∃ last, records.getLast? = some last ∧ last.parent = none ∧
    h.cells (last.loc + last.arity) = termHole
  above : ∀ k record, records[k]? = some record → k + 1 < records.length →
    record.parent = some (k + 1)
  parented : ∀ p record, records[p]? = some record → Parented h record (childrenOf records p)

/-- A chain up to a child. -/
structure Climbing (u : Setting) (m : Machine) (task : Nat) (below : List Record)
    (child : Record) : Prop where
  recorded : ∀ record ∈ below ++ [child], Recorded u m.heap record
  distinct : ((below ++ [child]).map Record.loc).Nodup
  listed : ∀ record ∈ below ++ [child], record.loc ∈ m.table (tbTaskHash record.loc)
  first : ∃ first, (below ++ [child]).head? = some first ∧ first.task = task ∧ first.remaining = 0
  parent : child.parent = none
  above : ∀ k record, below[k]? = some record → record.parent = some (k + 1)
  parented : ∀ p record, (below ++ [child])[p]? = some record →
    Parented m.heap record (childrenOf below p)
  counted : below.length + 1 ≤ m.tasks
  limit : m.tasks ≤ u.maxTasks

/-- The cells of a parent are checked, by induction on those that are left. -/
theorem chainCells_spec {loc index width n i : Nat} {reserved reserved' : Nat → Bool}
    (hok : chainCells h loc index width (List.range' i n) reserved = .ok reserved')
    (hbefore : ∀ k < i, reserved k = true ↔ index ≤ k ∧ k < index + width)
    (hafter : ∀ k, i ≤ k → reserved k = false) :
    (∀ k, reserved' k = true ↔ (index ≤ k ∧ k < index + width) ∧ k < i + n) ∧
      ∀ k, i ≤ k → k < i + n →
        (index ≤ k ∧ k < index + width → h.cells (loc + k) = termHole) ∧
        (¬(index ≤ k ∧ k < index + width) → Owned h (loc + k) →
          h.cells (loc + k) ≠ termHole) := by
  induction n generalizing i reserved with
  | zero =>
    cases hok
    refine ⟨fun k => ?_, fun k hle hlt => by omega⟩
    rcases Nat.lt_or_ge k i with hk | hk
    · rw [hbefore k hk]
      simp [hk]
    · rw [hafter k hk]
      simp
      omega
  | succ n ih =>
    have hsplit : ∀ k, i ≤ k → k < i + (n + 1) → k = i ∨ i + 1 ≤ k ∧ k < i + 1 + n := by omega
    rw [List.range'_succ] at hok
    unfold chainCells at hok
    split at hok
    · rename_i hinside
      split at hok
      · cases hok
      · rename_i hhole
        have hspan : index ≤ i ∧ i < index + width := by omega
        obtain ⟨hreserved, hcells⟩ := ih hok
          (fun k hk => by
            by_cases heq : k = i
            · subst heq
              simpa using hspan
            · rw [Function.update_of_ne heq]
              exact hbefore k (by omega))
          fun k hk => by
            rw [Function.update_of_ne (by omega)]
            exact hafter k (by omega)
        refine ⟨fun k => (hreserved k).trans (by omega), fun k hle hlt => ?_⟩
        rcases hsplit k hle hlt with rfl | hk
        · exact ⟨fun _ => not_not.1 hhole, fun hnot => absurd hspan hnot⟩
        · exact hcells k hk.1 hk.2
    · rename_i hinside
      have hspan : ¬(index ≤ i ∧ i < index + width) := by omega
      cases howned : tbCellOwned h (loc + i) with
      | error message =>
        rw [howned] at hok
        cases hok
      | ok owned =>
        rw [howned] at hok
        dsimp only at hok
        split at hok
        · cases hok
        · rename_i hpresent
          obtain ⟨hreserved, hcells⟩ := ih hok
            (fun k hk => by
              by_cases heq : k = i
              · subst heq
                rw [hafter k (Nat.le_refl _)]
                simpa using hspan
              · exact hbefore k (by omega))
            fun k hk => hafter k (by omega)
          refine ⟨fun k => (hreserved k).trans (by omega), fun k hle hlt => ?_⟩
          rcases hsplit k hle hlt with rfl | hk
          · refine ⟨fun hin => absurd hin hspan, fun _ hown hhole => hpresent ⟨?_, .inl hhole⟩⟩
            exact Except.ok.inj (howned.symm.trans hown)
          · exact hcells k hk.1 hk.2

/-- The task that a child names waits for this child alone. -/
theorem adoptParent_spec {parentTerm : Nat} (place : Nat) (hm₀ : Checked u m₀ m)
    (hnames : m.heap.cells (child.loc + child.arity) = parentTerm) :
    Finishes (adoptParent u child parentTerm) m
      (fun r m' => ∃ made reserved m₁, r = { made with reserved } ∧ made.task = parentTerm ∧
        Entered u m m₁ made ∧ Checked u m₁ m' ∧ m'.tasks = m₁.tasks ∧
        Parented m.heap r [{ child with parent := some place }.found])
      (Refused u m₀) := by
  refine .bind (tbTaskRecord_spec hm₀ parentTerm) fun made m₁ hmade => ?_
  obtain ⟨htask, hentered⟩ := hmade
  have hm₁ := hm₀.trans hentered.checked
  refine .bind (tbTick_spec hm₁) fun _ m₂ hticked => ?_
  obtain ⟨hticked, -, htasks⟩ := hticked
  have hm₂ := hm₁.trans hticked
  refine .ite (fun _ => refused_fail hm₂ _) fun hspan => ?_
  refine .get_bind ?_
  refine .bind (check_spec hm₂ _) fun reserved s hok => ?_
  obtain ⟨hok, rfl⟩ := hok
  rw [hticked.heap, hentered.checked.heap, List.range_eq_range'] at hok
  obtain ⟨hreserved, hcells⟩ := chainCells_spec hok (by omega) (by simp [hentered.reserved])
  have hloc : termLoc parentTerm = made.loc := by rw [Record.loc, htask]
  rw [hloc] at hcells
  refine .pure ⟨made, reserved, m₁, rfl, htask, hentered, hticked, htasks, ?_⟩
  exact {
    edges := fun c hc => by
      obtain rfl := List.mem_singleton.1 hc
      refine ⟨hnames.trans htask.symm, ?_, fun i hi => .inl ?_⟩
      · change child.index + child.width ≤ made.arity
        omega
      · have hin : child.index ≤ i ∧ i < child.index + child.width := hi
        exact (hcells i (Nat.zero_le _) (by omega)).1 hin
    apart := by simp
    reserved := fun i => by
      rw [hreserved i]
      simp only [List.mem_singleton, exists_eq_left]
      change _ ↔ child.index ≤ i ∧ i < child.index + child.width
      omega
    present := fun i hi hown hfree => by
      refine (hcells i (Nat.zero_le _) (by simpa using hi)).2 (fun hin => ?_) hown
      have htrue : reserved i = true := (hreserved i).2 ⟨hin, by simpa using hi⟩
      exact absurd (hfree.symm.trans htrue) (by simp)
    count := by
      change 1 = made.remaining
      omega }

theorem Parented.lifted {parent' : Option Nat} (hp : Parented h record children) :
    Parented h { record with parent := parent' } children :=
  ⟨fun c hc => ⟨(hp.edges c hc).names, (hp.edges c hc).inside, (hp.edges c hc).covers⟩, hp.apart,
    hp.reserved, hp.present, hp.count⟩

/-- One task of a chain is found. -/
theorem Climbing.step {below : List Record} {reserved : Nat → Bool}
    (hc : Climbing u m task below child) (he : Entered u m m₁ parent) (hm : Checked u m₁ m')
    (htasks : m'.tasks = m₁.tasks)
    (hp : Parented m.heap { parent with reserved }
      [{ child with parent := some (below.length + 1) }.found]) :
    Climbing u m' task (below ++ [{ child with parent := some (below.length + 1) }])
      { parent with reserved } := by
  have hheap : m'.heap = m.heap := hm.heap.trans he.checked.heap
  have hlocs : (below ++ [{ child with parent := some (below.length + 1) }] ++
      [{ parent with reserved }]).map Record.loc =
        (below ++ [child]).map Record.loc ++ [parent.loc] := by simp [Record.loc]
  have hlifted : ∀ {P : Record → Prop}, (∀ r ∈ below ++ [child], P r) →
      (P child → P { child with parent := some (below.length + 1) }) →
      P { parent with reserved } →
      ∀ r ∈ below ++ [{ child with parent := some (below.length + 1) }] ++
        [{ parent with reserved }], P r := by
    intro P hold hchild hparent r hr
    rcases List.mem_append.1 hr with hr | hr
    · rcases List.mem_append.1 hr with hr | hr
      · exact hold r (List.mem_append_left _ hr)
      · obtain rfl := List.mem_singleton.1 hr
        exact hchild (hold child (by simp))
    · obtain rfl := List.mem_singleton.1 hr
      exact hparent
  exact {
    recorded := by
      rw [hheap]
      refine hlifted hc.recorded (fun this => ?_) ?_
      · exact ⟨this.tail, this.arity, this.width, this.index, this.remaining, this.bounded⟩
      · have := he.recorded
        exact ⟨this.tail, this.arity, this.width, this.index, this.remaining, this.bounded⟩
    distinct := by
      rw [hlocs]
      refine List.nodup_append.2 ⟨hc.distinct, by simp, fun loc hloc loc' hloc' heq => ?_⟩
      obtain ⟨r, hr, rfl⟩ := List.mem_map.1 hloc
      obtain rfl := List.mem_singleton.1 hloc'
      have := hc.listed r hr
      rw [heq] at this
      exact he.absent this
    listed := by
      refine hlifted (fun r hr => hm.table _ (he.checked.table _ (hc.listed r hr))) id ?_
      exact hm.table _ he.present
    first := by
      obtain ⟨first, hfirst, htask, hready⟩ := hc.first
      cases below with
      | nil =>
        obtain rfl := Option.some.inj hfirst
        exact ⟨_, rfl, htask, hready⟩
      | cons r rest => exact ⟨first, hfirst, htask, hready⟩
    parent := he.parent
    above := by
      intro k r hr
      rcases Nat.lt_or_ge k below.length with hk | hk
      · rw [List.getElem?_append_left hk] at hr
        exact hc.above k r hr
      · obtain rfl : k = below.length := by
          have := (List.getElem?_eq_some_iff.1 hr).1
          simp at this
          omega
        rw [List.getElem?_append_right (Nat.le_refl _), Nat.sub_self] at hr
        obtain rfl := Option.some.inj hr
        rfl
    parented := by
      rw [hheap]
      intro p r hr
      rw [childrenOf_append]
      rcases Nat.lt_or_ge p (below.length + 1) with hlt | hge
      · have hnil : childrenOf [{ child with parent := some (below.length + 1) }] p = [] :=
          childrenOf_eq_nil fun c hc => by
            obtain rfl := List.mem_singleton.1 hc
            simpa using hlt.ne'
        rw [hnil, List.append_nil]
        rw [List.getElem?_append_left (by simpa using hlt)] at hr
        rcases Nat.lt_succ_iff_lt_or_eq.1 hlt with hlt | rfl
        · rw [List.getElem?_append_left hlt] at hr
          exact hc.parented p r (by rwa [List.getElem?_append_left hlt])
        · rw [List.getElem?_append_right (Nat.le_refl _), Nat.sub_self] at hr
          obtain rfl := Option.some.inj hr
          exact (hc.parented _ child (by simp)).lifted
      · obtain rfl : p = below.length + 1 := by
          have := (List.getElem?_eq_some_iff.1 hr).1
          simp at this
          omega
        rw [List.getElem?_append_right (by simp)] at hr
        simp at hr
        subst hr
        have hnil : childrenOf below (below.length + 1) = [] := by
          refine childrenOf_eq_nil fun c hmem heq => ?_
          obtain ⟨k, hk⟩ := List.mem_iff_getElem?.1 hmem
          rw [hc.above k c hk] at heq
          have := (List.getElem?_eq_some_iff.1 hk).1
          have := Option.some.inj heq
          omega
        rw [hnil, List.nil_append]
        simpa [childrenOf, Record.found] using hp
    counted := by
      have := hc.counted
      rw [htasks, he.tasks, List.length_append, List.length_singleton]
      omega
    limit := htasks ▸ he.limit }

/-- The scan of a chain, by induction on the records that may still be made. -/
theorem adoptChain_spec {fuel : Nat} {below : List Record} (hm₀ : Checked u m₀ m)
    (hfuel : u.maxTasks ≤ fuel + below.length) (hc : Climbing u m task below child) :
    Finishes (adoptChain u fuel below child) m
      (fun r m' => Checked u m m' ∧ Climbing u m' task r.1 r.2 ∧
        m.heap.cells (r.2.loc + r.2.arity) = termHole) (Refused u m₀) := by
  induction fuel generalizing below child m with
  | zero =>
    have := hc.counted
    have := hc.limit
    omega
  | succ fuel ih =>
    unfold adoptChain
    refine .get_bind ?_
    refine .bind (check_spec hm₀ _) fun tail s htail => ?_
    obtain ⟨htail, rfl⟩ := htail
    have hrecorded := hc.recorded child (by simp)
    obtain rfl : child.loc + child.arity = tail :=
      Except.ok.inj (hrecorded.tail.symm.trans htail)
    refine .ite (fun hhole => .pure ⟨.refl u s, hc, hhole⟩) fun _ => ?_
    refine .bind (adoptParent_spec (below.length + 1) hm₀ rfl) fun r m₂ hr => ?_
    obtain ⟨made, reserved, m₁, rfl, -, hentered, hchecked, htasks, hparented⟩ := hr
    have hm₂ := hentered.checked.trans hchecked
    refine (ih (hm₀.trans hm₂) ?_ (hc.step hentered hchecked htasks hparented)).imp ?_
    · simp
      omega
    · rintro r m' ⟨hm', hclimbed, hhole⟩
      rw [hm₂.heap] at hhole
      exact ⟨hm₂.trans hm', hclimbed, hhole⟩

end TeamyBend.Runtime.Tasks
