/-
# Programs that share nothing

A program builds constructors and closures, takes constructors apart and drops values, in any order,
and uses each word that it owns once.  Each step keeps the ownership of the blocks exact (`Sound`),
and so does every run from the start (`Run.sound`): what the program takes apart has one owner, no
word that it owns leads to a block that was given back, and a program that owns no block has left
none behind (`run_exact`).
-/
import TeamyBend.Runtime.NativeDrop

namespace TeamyBend.Runtime.Values

open BlockHeap (Heap Block)
open Library (Finishes)
open Tasks (Machine termLoc)

variable {u : Program} {role role' : Nat → Role} {m m' : Machine} {h h' : Heap}
  {nodes nodes' roots rest : Multiset Nat} {term cid fid count : Nat} {values : List Nat}

/-! ## 1. Blocks without a counter -/

/-- No block counts owners, and every field is owned. -/
structure Linear (u : Program) (role : Nat → Role) (h : Heap) (nodes : Multiset Nat) : Prop where
  payload : ∀ x ∈ nodes, ∃ tag aux, role x = .payload tag aux
  marks : ∀ x ∈ nodes, ∀ i < fieldCount u (role x), h.owned (x + i) = true

theorem Linear.empty (role : Nat → Role) (h : Heap) : Linear u role h 0 := ⟨nofun, nofun⟩

/-- Blocks that were there keep their marks. -/
theorem Linear.same (hl : Linear u role h nodes) (hsub : ∀ x ∈ nodes', x ∈ nodes)
    (hfilled : ∀ x ∈ nodes', Filled u role h x) (hrole : ∀ x ∈ nodes', role' x = role x)
    (hs : SameAt u role (· ∈ nodes') h h') : Linear u role' h' nodes' where
  payload x hx := hrole x hx ▸ hl.payload x (hsub x hx)
  marks x hx i hi := by
    rw [hrole x hx] at hi
    have hlt := Nat.lt_of_lt_of_le hi (fieldCount_le (hfilled x hx))
    have hhas : (blockOf u role x).Has (x + i) :=
      ⟨Nat.le_add_right .., Nat.add_lt_add_left hlt x⟩
    rw [hs.owned x hx _ hhas]
    exact hl.marks x (hsub x hx) i hi

/-- The fields of a block are all that stands in its cells. -/
theorem Linear.fields (hl : Linear u role h nodes) (hx : term ∈ nodes) :
    fields u role h term = words h.cells (fun _ => true) term (fieldCount u (role term)) := by
  refine congrArg _ (words_congr fun l hlo hhi => ⟨rfl, ?_⟩)
  have hmark := hl.marks term hx (l - term) (by omega)
  rwa [Nat.add_sub_cancel' hlo] at hmark

/-! ## 2. Steps -/

/-- A program owns its words, and the heap holds what they lead to. -/
def Sound (u : Program) (m : Machine) (roots : Multiset Nat) : Prop :=
  ∃ role nodes, m.heap.Holds (blocks u role nodes) ∧ Owned u role m.heap nodes roots ∧
    Linear u role m.heap nodes

namespace Sound

theorem add_trivial (hs : Sound u m roots) (htriv : termTriv term = true) :
    Sound u m (term ::ₘ roots) := by
  obtain ⟨role, nodes, hh, ho, hl⟩ := hs
  exact ⟨role, nodes, hh, ho.add_trivial htriv, hl⟩

theorem drop_trivial (hs : Sound u m (term ::ₘ roots)) (htriv : termTriv term = true) :
    Sound u m roots := by
  obtain ⟨role, nodes, hh, ho, hl⟩ := hs
  exact ⟨role, nodes, hh, ho.drop_trivial htriv, hl⟩

/-- A value was built. -/
theorem built {tag aux : Nat} (ho : Owned u role m.heap nodes (↑values + roots))
    (hl : Linear u role m.heap nodes)
    (hb : Built u role m.heap nodes roots tag aux values term role' h) :
    Sound u { m with heap := h } (term ::ₘ roots) := by
  have hkept := hl.same (fun _ hx => hx) ho.filled hb.others hb.same
  refine ⟨role', _, hb.holds, hb.owned, fun x hx => ?_, fun x hx => ?_⟩
  · rcases Multiset.mem_cons.1 hx with rfl | hx
    · exact ⟨tag, aux, hb.payload⟩
    · exact hkept.payload x hx
  · rcases Multiset.mem_cons.1 hx with rfl | hx
    · rw [hb.payload]
      exact hb.marks
    · exact hkept.marks x hx

theorem construct (hs : Sound u m (↑values + roots)) :
    Finishes (tbConstruct u cid values false) m (fun term m' => Sound u m' (term ::ₘ roots))
      fun err _ => ∃ message, err = .fail message ∧
        Unconstructed u m.heap cid values.length message := by
  obtain ⟨role, nodes, hh, ho, hl⟩ := hs
  refine (tbConstruct_exact hh ho).imp ?_
  rintro term _ ⟨-, heap, role', rfl, hb⟩
  exact built ho hl hb

theorem closure (hs : Sound u m (↑values + roots)) :
    Finishes (tbClosure u fid values) m (fun term m' => Sound u m' (term ::ₘ roots))
      fun err _ => ∃ message, err = .fail message ∧
        Unclosed u m.heap fid values.length message := by
  obtain ⟨role, nodes, hh, ho, hl⟩ := hs
  refine (tbClosure_exact hh ho).imp ?_
  rintro term _ (⟨htriv, rfl, rfl⟩ | ⟨heap, role', rfl, hb⟩)
  · rw [Multiset.coe_nil, zero_add] at ho
    exact ⟨role, nodes, hh, ho.add_trivial htriv, hl⟩
  · exact built ho hl hb

/-- So does the reading of fields. -/
theorem fields (hs : Sound u m (term ::ₘ roots)) :
    Finishes (tbFields u term cid count false) m (fun values m' => Sound u m' (↑values + roots))
      fun err _ => ∃ message, err = .fail message ∧
        representation u term cid count false = .error message := by
  obtain ⟨role, nodes, hh, ho, hl⟩ := hs
  have hsole (htriv : termTriv term = false) : need role m.heap (termLoc term) = 1 := by
    obtain ⟨tag, aux, hrole⟩ := hl.payload _ (ho.mem_root (Multiset.mem_cons_self ..) htriv)
    rw [need, hrole]
  refine (tbFields_exact hh ho hsole).imp ?_
  rintro values _ ⟨heap, nodes', payload, rfl, -, hcount, hholds, htaken, rfl⟩
  refine ⟨role, nodes', hholds, ?_, hl.same (fun x hx => (htaken.sub x hx).1)
    (fun x hx => ho.filled x (htaken.sub x hx).1) (fun _ _ => rfl) htaken.same⟩
  have howned := htaken.owned
  rwa [hl.fields htaken.mem, hcount] at howned

theorem drop (hs : Sound u m (term ::ₘ roots)) :
    Finishes (termDrop u term) m (fun _ m' => Sound u m' roots) fun err m' => Tired u m' err := by
  obtain ⟨role, nodes, hh, ho, hl⟩ := hs
  refine (termDrop_spec hh ho).imp ?_
  rintro _ _ ⟨heap, steps, nodes', rfl, hholds, howned, hsurvive⟩
  have hsub : ∀ x ∈ nodes', x ∈ nodes := fun x hx => Multiset.mem_of_le hsurvive.sub hx
  have hsame : SameAt u role (· ∈ nodes') m.heap heap := by
    refine ⟨fun x hx l hl' => ?_, fun x hx l hl' => ?_⟩
    · obtain ⟨tag, aux, hrole⟩ := hl.payload x (hsub x hx)
      exact hsurvive.cells x hx tag aux hrole l hl'
    · rw [Heap.owned, Heap.owned, hsurvive.metadata x hx l hl']
  exact ⟨role, nodes', hholds, howned, hl.same hsub (fun x hx => ho.filled x (hsub x hx))
    (fun _ _ => rfl) hsame⟩

end Sound

/-! ## 3. Runs -/

/-- A program runs: it has come to a machine, and owns some words. -/
inductive Run (u : Program) (start : Machine) : Machine → Multiset Nat → Prop
  | start : Run u start start 0
  | number {m : Machine} {rest : Multiset Nat} {term : Nat} (hrun : Run u start m rest)
    (htriv : termTriv term = true) : Run u start m (term ::ₘ rest)
  | forget {m : Machine} {rest : Multiset Nat} {term : Nat} (hrun : Run u start m (term ::ₘ rest))
    (htriv : termTriv term = true) : Run u start m rest
  | construct {m m' : Machine} {rest : Multiset Nat} {values : List Nat} {cid term : Nat}
    (hrun : Run u start m (↑values + rest))
    (hcall : tbConstruct u cid values false m = .ok term m') : Run u start m' (term ::ₘ rest)
  | closure {m m' : Machine} {rest : Multiset Nat} {values : List Nat} {fid term : Nat}
    (hrun : Run u start m (↑values + rest)) (hcall : tbClosure u fid values m = .ok term m') :
    Run u start m' (term ::ₘ rest)
  | fields {m m' : Machine} {rest : Multiset Nat} {values : List Nat} {cid count term : Nat}
    (hrun : Run u start m (term ::ₘ rest))
    (hcall : tbFields u term cid count false m = .ok values m') :
    Run u start m' (↑values + rest)
  | drop {m m' : Machine} {rest : Multiset Nat} {term : Nat} (hrun : Run u start m (term ::ₘ rest))
    (hcall : termDrop u term m = .ok () m') : Run u start m' rest

theorem Run.sound {start : Machine} (hs : Sound u start 0) (hrun : Run u start m roots) :
    Sound u m roots := by
  induction hrun with
  | start => exact hs
  | number _ htriv ih => exact ih.add_trivial htriv
  | forget _ htriv ih => exact ih.drop_trivial htriv
  | construct _ hcall ih => exact ih.construct.result hcall
  | closure _ hcall ih => exact ih.closure.result hcall
  | fields _ hcall ih => exact ih.fields.result hcall
  | drop _ hcall ih => exact ih.drop.result hcall

/-- What owns no block has no block. -/
theorem Sound.leaves_nothing (hs : Sound u m roots) (htriv : ∀ t ∈ roots, termTriv t = true) :
    m.heap.Holds 0 := by
  obtain ⟨role, nodes, hh, ho, -⟩ := hs
  have htargets : targets roots = 0 := by
    rw [targets, Multiset.filter_eq_nil.2 fun t ht => by rw [htriv t ht]; exact Bool.noConfusion]
    rfl
  have hcounted := ho.counted
  rw [htargets] at hcounted
  rw [hcounted.eq_zero] at hh
  exact hh

/-- **Whatever such a program does, it may drop what it owns, and it leaves nothing behind.** -/
theorem run_exact {start : Machine} {memory heapMeta capacity : Nat}
    (hstart : BlockHeap.startHeap memory heapMeta capacity = .ok start.heap)
    (hmeta : heapMeta ≠ 0) (hrun : Run u start m roots) :
    (∃ role nodes, m.heap.Holds (blocks u role nodes) ∧ Owned u role m.heap nodes roots) ∧
      (∀ term rest, roots = term ::ₘ rest → Finishes (termDrop u term) m
        (fun _ m' => Run u start m' rest) fun err m' => Tired u m' err) ∧
      ((∀ t ∈ roots, termTriv t = true) → m.heap.liveBlocks = 0 ∧ m.heap.liveWords = 0) := by
  have hempty : start.heap.Holds 0 := BlockHeap.Heap.Holds.holds_startHeap hmeta hstart
  have hsound : Sound u start 0 :=
    ⟨fun _ => .counter 0, 0, hempty, Owned.empty _ _, Linear.empty _ _⟩
  have hs := hrun.sound hsound
  refine ⟨?_, ?_, fun htriv => (hs.leaves_nothing htriv).nothing_live⟩
  · obtain ⟨role, nodes, hh, ho, -⟩ := hs
    exact ⟨role, nodes, hh, ho⟩
  · rintro term rest rfl
    rcases hs.drop.cases with ⟨_, m', hcall, -⟩ | ⟨err, m', hcall, htired⟩
    · exact .ok hcall (hrun.drop hcall)
    · exact .error hcall htired

/-- A constructor is built and dropped. -/
theorem run_exact_constructor :
    ∃ (start : Heap) (m : Machine), BlockHeap.startHeap 8 8 64 = .ok start ∧
      Run oneField (machineAt start) m 0 ∧ m.steps ≠ 0 ∧ m.heap.liveBlocks = 0 := by
  obtain ⟨start, hstart⟩ : ∃ start, BlockHeap.startHeap 8 8 64 = .ok start := ⟨_, rfl⟩
  obtain ⟨m, m', hbuild, hdrop, hsteps⟩ : ∃ m m',
      tbConstruct oneField 0 [7] false (machineAt start) = .ok (tagCtr * 2 ^ 56 + 1) m ∧
        termDrop oneField (tagCtr * 2 ^ 56 + 1) m = .ok () m' ∧ m'.steps ≠ 0 := by
    cases hstart
    exact ⟨_, _, rfl, rfl, by decide⟩
  have hrun : Run oneField (machineAt start) m' 0 :=
    .drop (.construct (.number .start (by decide)) hbuild) hdrop
  exact ⟨start, m', hstart, hrun, hsteps,
    ((run_exact hstart (by decide) hrun).2.2 nofun).1⟩

end TeamyBend.Runtime.Values
