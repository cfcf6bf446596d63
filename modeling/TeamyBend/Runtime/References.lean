/-
# References lead to occupied slots

A thunk of the machine is known by its place in an arena whose slots are emptied and used again, so
a reference to a slot that was emptied would read what somebody else put there.  In a machine that
is `Sane` every reference leads to an occupied slot: from the slots themselves, from the globals and
from the roots of the host; and a slot is on the free list exactly where it is empty.

Every operation of the evaluator keeps this.  Only a collection empties slots, and it runs between
two turns, where the current thunk and the frames are all that a run still refers to.  So a run that
starts with a sane machine never follows a reference into an empty slot, however often it collects,
and it never leaves the bounds of a vector (`evaluate_proper`).
-/
import TeamyBend.Runtime.CollectionExact
import TeamyBend.Runtime.Force

namespace TeamyBend.Runtime.Evaluator

open Kernel (Term LetBinding)
open Library (Finishes Reaches)

/-! ## 1. Sane machines -/

/-- What a broken reference is reported as. -/
def broken : List String :=
  ["index out of bounds", "invalid runtime thunk root", "invalid runtime environment root",
    "vacant runtime thunk root", "vacant runtime environment root",
    "invalid runtime thunk reference", "invalid runtime environment reference"]

/-- An error that reports no broken reference. -/
def Proper (err : KernelError) : Prop := err.message ∉ broken

instance (err : KernelError) : Decidable (Proper err) := inferInstanceAs (Decidable (_ ∉ _))

/-- All references lead to occupied slots, and what is empty is free, once. -/
structure Machine.Sane (m : Machine) : Prop where
  edges : ∀ x y, m.Edge x y → m.Occupied y
  root : m.Occupied (.Environment 0)
  globals : ∀ g ∈ m.globals, m.Occupied (.Thunk g.2)
  callers : ∀ id ∈ m.callerRoots, m.Occupied (.Thunk id)
  hosts : ∀ id ∈ m.hostRoots, m.Occupied (.Thunk id)
  freeThunks : m.freeThunks.Nodup ∧ ∀ id, id ∈ m.freeThunks ↔ m.arena[id]? = some none
  freeEnvironments :
    m.freeEnvironments.Nodup ∧ ∀ id, id ∈ m.freeEnvironments ↔ m.environments[id]? = some none

/-- What is occupied stays occupied, and the roots of the callers stay. -/
structure Retains (m m' : Machine) : Prop where
  occupied : ∀ n, m.Occupied n → m'.Occupied n
  callers : m'.callerRoots = m.callerRoots

/-- The nodes are occupied. -/
def Machine.Holds (m : Machine) (nodes : List Node) : Prop := ∀ n ∈ nodes, m.Occupied n

/-- A word that is decoded for an argument has its place among the words. -/
def WordTarget.Fits : WordTarget → Prop
  | .Arguments state => state.arguments.length = state.operation.arity ∧
      state.words.length < state.arguments.length
  | .Character _ _ => True

/-- A frame whose indices fit its operation. -/
def Frame.Fits : Frame → Prop
  | .Natural state => state.arguments.length = state.operation.arity ∧
      state.values.length < state.operation.arity
  | .Numeric (.Ordinary state) => state.arguments.length = state.operation.arity ∧
      state.words.length < state.arguments.length
  | .Numeric (.Unwrap target) | .Numeric (.Word target _ _) | .Numeric (.Bit target _ _ _) =>
    target.Fits
  | _ => True

/-- The frames refer to occupied slots. -/
def Machine.Carries (m : Machine) (frames : List Frame) : Prop :=
  ∀ frame ∈ frames, m.Holds frame.nodes ∧ frame.Fits

section Lemmas

variable {m m' m'' : Machine} {nodes nodes' : List Node} {frames : List Frame} {frame : Frame}
  {id : ThunkId} {ids : List ThunkId}

theorem Retains.refl (m : Machine) : Retains m m := ⟨fun _ h => h, rfl⟩

theorem Retains.trans (h : Retains m m') (h' : Retains m' m'') : Retains m m'' :=
  ⟨fun n hn => h'.occupied n (h.occupied n hn), h'.callers.trans h.callers⟩

@[simp] theorem holds_nil : m.Holds [] := fun _ h => absurd h List.not_mem_nil

@[simp] theorem holds_cons {n : Node} : m.Holds (n :: nodes) ↔ m.Occupied n ∧ m.Holds nodes :=
  List.forall_mem_cons

@[simp] theorem holds_append : m.Holds (nodes ++ nodes') ↔ m.Holds nodes ∧ m.Holds nodes' :=
  List.forall_mem_append

/-- A node held stays held while nothing is freed. -/
theorem Machine.Holds.mono (h : m.Holds nodes) (hext : Retains m m') : m'.Holds nodes :=
  fun n hn => hext.occupied n (h n hn)

@[simp] theorem carries_cons :
    m.Carries (frame :: frames) ↔ (m.Holds frame.nodes ∧ frame.Fits) ∧ m.Carries frames :=
  List.forall_mem_cons

@[simp] theorem carries_nil : m.Carries [] := fun _ h => absurd h List.not_mem_nil

/-- A stack carried stays carried while nothing is freed. -/
theorem Machine.Carries.mono (h : m.Carries frames) (hext : Retains m m') : m'.Carries frames :=
  fun frame hframe => ⟨(h frame hframe).1.mono hext, (h frame hframe).2⟩

theorem holds_thunks : m.Holds (ids.map .Thunk) ↔ ∀ id ∈ ids, m.Occupied (.Thunk id) := by
  simp [Machine.Holds]

/-- The nodes of a live thunk are held. -/
theorem Machine.Sane.thunk (h : m.Sane) {thunk : Thunk} (hat : m.thunkAt id = some thunk) :
    m.Holds thunk.nodes := fun n hn =>
  h.edges (.Thunk id) n ⟨thunk.nodes, by rw [Machine.edgesAt, hat, Option.map_some], hn⟩

/-- The nodes of a live environment are held. -/
theorem Machine.Sane.environment (h : m.Sane) {scope : EnvId} {environment : Environment}
    (hat : m.environmentAt scope = some environment) : m.Holds environment.nodes := fun n hn =>
  h.edges (.Environment scope) n
    ⟨environment.nodes, by rw [Machine.edgesAt, hat, Option.map_some], hn⟩

/-- A thunk is occupied when its slot holds something. -/
theorem occupied_thunk_iff : m.Occupied (.Thunk id) ↔ ∃ thunk, m.thunkAt id = some thunk := by
  rw [Machine.Occupied, Machine.edgesAt, Option.isSome_map, Option.isSome_iff_exists]

/-- An environment is occupied when its slot holds something. -/
theorem occupied_environment_iff {scope : EnvId} :
    m.Occupied (.Environment scope) ↔ ∃ environment, m.environmentAt scope = some environment := by
  rw [Machine.Occupied, Machine.edgesAt, Option.isSome_map, Option.isSome_iff_exists]

/-- A machine that differs in nothing that is referred to. -/
theorem Machine.Sane.congr (h : m.Sane) (harena : m'.arena = m.arena)
    (henvironments : m'.environments = m.environments) (hglobals : m'.globals = m.globals)
    (hcallers : m'.callerRoots = m.callerRoots) (hhosts : m'.hostRoots = m.hostRoots)
    (hthunks : m'.freeThunks = m.freeThunks)
    (hfree : m'.freeEnvironments = m.freeEnvironments) : m'.Sane ∧ Retains m m' := by
  have hedges : m'.edgesAt = m.edgesAt := by
    funext n
    cases n with
    | Thunk id => rw [Machine.edgesAt, Machine.edgesAt, Machine.thunkAt, Machine.thunkAt, harena]
    | Environment id =>
      rw [Machine.edgesAt, Machine.edgesAt, Machine.environmentAt, Machine.environmentAt,
        henvironments]
  have hoccupied : m'.Occupied = m.Occupied := by
    funext n
    rw [Machine.Occupied, Machine.Occupied, hedges]
  have hedge : m'.Edge = m.Edge := by
    funext x y
    rw [Machine.Edge, Machine.Edge, hedges]
  refine ⟨⟨?_, ?_, ?_, ?_, ?_, ?_, ?_⟩, fun n hn => hoccupied ▸ hn, hcallers⟩
  · rw [hedge, hoccupied]
    exact h.edges
  · rw [hoccupied]
    exact h.root
  · rw [hglobals, hoccupied]
    exact h.globals
  · rw [hcallers, hoccupied]
    exact h.callers
  · rw [hhosts, hoccupied]
    exact h.hosts
  · rw [hthunks, harena]
    exact h.freeThunks
  · rw [hfree, henvironments]
    exact h.freeEnvironments

/-- A slot of the arena gets a thunk whose references lead to occupied slots. -/
theorem Machine.Sane.put (h : m.Sane) {thunk : Thunk} (hnodes : m.Holds thunk.nodes)
    (hslots : ∀ id', m'.arena[id']? = if id' = id then some (some thunk) else m.arena[id']?)
    (henvironments : m'.environments = m.environments) (hglobals : m'.globals = m.globals)
    (hcallers : m'.callerRoots = m.callerRoots) (hhosts : m'.hostRoots = m.hostRoots)
    (hnodup : m'.freeThunks.Nodup)
    (hmem : ∀ id', id' ∈ m'.freeThunks ↔ id' ∈ m.freeThunks ∧ id' ≠ id)
    (hfree : m'.freeEnvironments = m.freeEnvironments) :
    (m'.Sane ∧ Retains m m') ∧ m'.Occupied (.Thunk id) := by
  have hhere : m'.thunkAt id = some thunk := by
    rw [Machine.thunkAt, hslots, if_pos rfl]
    rfl
  have hsame (id' : ThunkId) (hne : id' ≠ id) : m'.thunkAt id' = m.thunkAt id' := by
    rw [Machine.thunkAt, hslots, if_neg hne, Machine.thunkAt]
  have henvironment : m'.environmentAt = m.environmentAt := by
    funext scope
    rw [Machine.environmentAt, Machine.environmentAt, henvironments]
  have hoccupied (n : Node) (hn : m.Occupied n) : m'.Occupied n := by
    cases n with
    | Thunk id' =>
      rw [occupied_thunk_iff] at hn ⊢
      by_cases hid : id' = id
      · exact ⟨thunk, hid ▸ hhere⟩
      · rwa [hsame id' hid]
    | Environment scope =>
      rw [occupied_environment_iff] at hn ⊢
      rwa [henvironment]
  refine ⟨⟨⟨?_, hoccupied _ h.root, ?_, ?_, ?_, ⟨hnodup, fun id' => ?_⟩, ?_⟩, hoccupied, hcallers⟩,
    occupied_thunk_iff.2 ⟨thunk, hhere⟩⟩
  · rintro x y ⟨nodes, hx, hy⟩
    cases x with
    | Thunk id' =>
      by_cases hid : id' = id
      · subst hid
        rw [Machine.edgesAt, hhere, Option.map_some, Option.some.injEq] at hx
        exact hoccupied y (hnodes y (hx ▸ hy))
      · rw [Machine.edgesAt, hsame id' hid] at hx
        exact hoccupied y (h.edges (.Thunk id') y ⟨nodes, hx, hy⟩)
    | Environment scope =>
      rw [Machine.edgesAt, henvironment] at hx
      exact hoccupied y (h.edges (.Environment scope) y ⟨nodes, hx, hy⟩)
  · rw [hglobals]
    exact fun g hg => hoccupied _ (h.globals g hg)
  · rw [hcallers]
    exact fun id hid => hoccupied _ (h.callers id hid)
  · rw [hhosts]
    exact fun id hid => hoccupied _ (h.hosts id hid)
  · rw [hmem, h.freeThunks.2, hslots]
    by_cases hid : id' = id
    · simp [hid]
    · simp [hid]
  · rw [hfree, henvironments]
    exact h.freeEnvironments

/-- A slot gets an environment whose references lead to occupied slots. -/
theorem Machine.Sane.enclose (h : m.Sane) {scope : EnvId} {environment : Environment}
    (hnodes : m.Holds environment.nodes)
    (hslots : ∀ scope', m'.environments[scope']? =
      if scope' = scope then some (some environment) else m.environments[scope']?)
    (hvacant : ¬m.Occupied (.Environment scope)) (harena : m'.arena = m.arena)
    (hglobals : m'.globals = m.globals) (hcallers : m'.callerRoots = m.callerRoots)
    (hhosts : m'.hostRoots = m.hostRoots) (hthunks : m'.freeThunks = m.freeThunks)
    (hnodup : m'.freeEnvironments.Nodup)
    (hmem : ∀ scope', scope' ∈ m'.freeEnvironments ↔
      scope' ∈ m.freeEnvironments ∧ scope' ≠ scope) :
    (m'.Sane ∧ Retains m m') ∧ m'.Occupied (.Environment scope) := by
  have hhere : m'.environmentAt scope = some environment := by
    rw [Machine.environmentAt, hslots, if_pos rfl]
    rfl
  have hsame (scope' : EnvId) (hne : scope' ≠ scope) :
      m'.environmentAt scope' = m.environmentAt scope' := by
    rw [Machine.environmentAt, hslots, if_neg hne, Machine.environmentAt]
  have hthunk : m'.thunkAt = m.thunkAt := by
    funext id
    rw [Machine.thunkAt, Machine.thunkAt, harena]
  have hoccupied (n : Node) (hn : m.Occupied n) : m'.Occupied n := by
    cases n with
    | Thunk id =>
      rw [occupied_thunk_iff] at hn ⊢
      rwa [hthunk]
    | Environment scope' =>
      have hne : scope' ≠ scope := fun heq => hvacant (heq ▸ hn)
      rw [occupied_environment_iff] at hn ⊢
      rwa [hsame scope' hne]
  refine ⟨⟨⟨?_, hoccupied _ h.root, ?_, ?_, ?_, ?_, ⟨hnodup, fun scope' => ?_⟩⟩, hoccupied,
    hcallers⟩, occupied_environment_iff.2 ⟨environment, hhere⟩⟩
  · rintro x y ⟨nodes, hx, hy⟩
    cases x with
    | Thunk id =>
      rw [Machine.edgesAt, hthunk] at hx
      exact hoccupied y (h.edges (.Thunk id) y ⟨nodes, hx, hy⟩)
    | Environment scope' =>
      by_cases hid : scope' = scope
      · subst hid
        rw [Machine.edgesAt, hhere, Option.map_some, Option.some.injEq] at hx
        exact hoccupied y (hnodes y (hx ▸ hy))
      · rw [Machine.edgesAt, hsame scope' hid] at hx
        exact hoccupied y (h.edges (.Environment scope') y ⟨nodes, hx, hy⟩)
  · rw [hglobals]
    exact fun g hg => hoccupied _ (h.globals g hg)
  · rw [hcallers]
    exact fun id hid => hoccupied _ (h.callers id hid)
  · rw [hhosts]
    exact fun id hid => hoccupied _ (h.hosts id hid)
  · rw [hthunks, harena]
    exact h.freeThunks
  · rw [hmem, h.freeEnvironments.2, hslots]
    by_cases hid : scope' = scope
    · simp [hid]
    · simp [hid]

end Lemmas

/-! ## 2. Safe computations -/

/-- The computation keeps the machine sane and what is occupied, or fails with an error that
reports no broken reference. -/
def Safe {α : Type} (m : Machine) (x : M α) (Q : α → Machine → Prop) : Prop :=
  Finishes x m (fun a m' => (m'.Sane ∧ Retains m m') ∧ Q a m') fun err _ => Proper err

namespace Safe

variable {α β : Type} {m m' : Machine} {x y : M α} {f : α → M β} {Q Q' : α → Machine → Prop}
  {R : β → Machine → Prop}

theorem pure {a : α} (hm : m.Sane) (hQ : Q a m) : Safe m (Pure.pure a) Q :=
  Finishes.pure ⟨⟨hm, .refl m⟩, hQ⟩

theorem throw {err : KernelError} (herr : Proper err) : Safe m (MonadExcept.throw err : M α) Q :=
  Finishes.throw herr

theorem fail {message : String} (herr : Proper (.new message)) :
    Safe m (Evaluator.fail message : M α) Q := Finishes.throw herr

theorem bind (hx : Safe m x Q)
    (hf : ∀ a m', m'.Sane → Retains m m' → Q a m' → Safe m' (f a) R) : Safe m (x >>= f) R :=
  Finishes.bind hx fun a m' h => (hf a m' h.1.1 h.1.2 h.2).imp
    fun _ _ h' => ⟨⟨h'.1.1, h.1.2.trans h'.1.2⟩, h'.2⟩

theorem fail_bind {message : String} (herr : Proper (.new message)) :
    Safe m ((Evaluator.fail message : M α) >>= f) R :=
  bind (Q := fun _ _ => False) (fail herr) fun _ _ _ _ h => h.elim

/-- Reading the machine changes nothing. -/
theorem get_bind {g : Machine → M α} (h : Safe m (g m) Q) : Safe m (get >>= g) Q :=
  Finishes.get_bind h

theorem ite {c : Prop} [Decidable c] (ht : c → Safe m x Q) (hf : ¬c → Safe m y Q) :
    Safe m (if c then x else y) Q := Finishes.ite ht hf

/-- A step that changes nothing that is referred to. -/
theorem of_spent {E : KernelError → Machine → Prop} (hm : m.Sane)
    (h : Finishes x m (fun a m' => Spent m m' ∧ Q a m') E) (hE : ∀ err m', E err m' → Proper err) :
    Safe m x Q := by
  refine Finishes.mono h ?_ hE
  rintro a _ ⟨⟨r, rfl⟩, hQ⟩
  exact ⟨hm.congr rfl rfl rfl rfl rfl rfl rfl, hQ⟩

end Safe

section Primitives

variable {setting : Setting} {m m' : Machine} {id : ThunkId} {scope : EnvId} {thunk : Thunk}
  {frames : List Frame} {frame : Frame}

/-- Spending a step is safe. -/
theorem tick_safe (hm : m.Sane) : Safe m tick fun _ _ => True :=
  .of_spent hm (tick_spent.imp fun _ _ h => ⟨h, trivial⟩) fun _ _ h => h ▸ by decide

theorem getElem?_set_some {α : Type} {l : List α} {i j : Nat} {a : α} (hi : i < l.length) :
    (l.set i a)[j]? = if j = i then some a else l[j]? := by
  rw [List.getElem?_set]
  by_cases hij : i = j
  · rw [if_pos hij, if_pos hi, if_pos hij.symm]
  · rw [if_neg hij, if_neg (Ne.symm hij)]

theorem getElem?_push {α : Type} {l : List α} {j : Nat} {a : α} :
    (l ++ [a])[j]? = if j = l.length then some a else l[j]? := by
  by_cases hj : j = l.length
  · rw [if_pos hj, hj, List.getElem?_concat_length]
  · rw [if_neg hj]
    by_cases hlt : j < l.length
    · exact List.getElem?_append_left hlt
    · rw [List.getElem?_eq_none (by simp; omega), List.getElem?_eq_none (Nat.le_of_not_lt hlt)]

/-- The slot of a thunk that is there is written. -/
theorem store_safe (hm : m.Sane) (hid : m.Occupied (.Thunk id)) (hnodes : m.Holds thunk.nodes) :
    Safe m (store id thunk) fun _ _ => True := by
  have hlt : id < m.arena.length := by simpa [Machine.within] using hid.within
  have hheld : id ∉ m.freeThunks := fun hmem => by
    obtain ⟨old, hold⟩ := hid.thunk
    cases hold.symm.trans ((hm.freeThunks.2 id).1 hmem)
  have hput : (Machine.Sane { m with arena := m.arena.set id (some thunk) } ∧
      Retains m { m with arena := m.arena.set id (some thunk) }) ∧ _ :=
    hm.put hnodes (fun id' => getElem?_set_some hlt) rfl rfl rfl rfl hm.freeThunks.1
      (fun id' => ⟨fun hmem => ⟨hmem, fun heq => hheld (heq ▸ hmem)⟩, And.left⟩) rfl
  exact Finishes.ok (store_run hlt) ⟨hput.1, trivial⟩

/-- A thunk over held nodes is allocated in an occupied slot. -/
theorem allocate_safe (hm : m.Sane) (hnodes : m.Holds thunk.nodes) :
    Safe m (allocate setting thunk) fun id m' => m'.Occupied (.Thunk id) := by
  cases hfree : m.freeThunks with
  | nil =>
    by_cases hroom : m.arena.length < setting.limits.arena
    · refine Finishes.ok (allocate_new hfree hroom) (hm.put hnodes (fun id' => getElem?_push)
        rfl rfl rfl rfl hm.freeThunks.1 (fun id' => ?_) rfl)
      show id' ∈ m.freeThunks ↔ _
      simp [hfree]
    · exact Finishes.error (allocate_full hfree (Nat.le_of_not_lt hroom)) (by decide)
  | cons id free =>
    have hvacant : m.arena[id]? = some none :=
      (hm.freeThunks.2 id).1 (hfree ▸ List.mem_cons_self)
    have hlt : id < m.arena.length := (List.getElem?_eq_some_iff.1 hvacant).1
    have hnodup := List.nodup_cons.1 (hfree ▸ hm.freeThunks.1)
    refine Finishes.ok (allocate_free hfree hlt) (hm.put hnodes
      (fun id' => getElem?_set_some hlt) rfl rfl rfl rfl hnodup.2 (fun id' => ?_) rfl)
    show id' ∈ free ↔ _
    rw [hfree, List.mem_cons]
    by_cases hid : id' = id
    · simp [hid, hnodup.1]
    · simp [hid]

/-- An environment over an occupied parent and occupied thunks is safe to build. -/
theorem environment_safe {bindings : List (Nat × ThunkId)} (hm : m.Sane)
    (hscope : m.Occupied (.Environment scope))
    (hbindings : ∀ b ∈ bindings, m.Occupied (.Thunk b.2)) :
    Safe m (environment setting scope bindings) fun id m' => m'.Occupied (.Environment id) := by
  have hnodes : m.Holds (Environment.nodes ⟨some scope, bindings⟩) := by
    refine holds_append.2 ⟨by simpa using hscope, fun n hn => ?_⟩
    obtain ⟨b, hb, rfl⟩ := List.mem_map.1 hn
    exact hbindings b hb
  refine .get_bind ?_
  cases hfree : m.freeEnvironments with
  | nil =>
    refine .ite (fun _ => .fail (by decide)) fun _ => ?_
    refine Finishes.ok rfl (hm.enclose hnodes (fun id' => getElem?_push) ?_ rfl rfl rfl rfl rfl
      List.nodup_nil fun id' => ?_)
    · intro hlen
      simpa [Machine.within] using hlen.within
    · simp [hfree, Machine.allocated]
  | cons id free =>
    have hvacant : m.environments[id]? = some none :=
      (hm.freeEnvironments.2 id).1 (hfree ▸ List.mem_cons_self)
    have hlt : id < m.environments.length := (List.getElem?_eq_some_iff.1 hvacant).1
    have hnodup := List.nodup_cons.1 (hfree ▸ hm.freeEnvironments.1)
    refine .ite (fun _ => ?_) fun hout => absurd hlt hout
    refine Finishes.ok rfl (hm.enclose hnodes (fun id' => getElem?_set_some hlt) ?_ rfl rfl rfl rfl
      rfl hnodup.2 fun id' => ?_)
    · intro hid
      obtain ⟨old, hold⟩ := hid.environment
      cases hold.symm.trans hvacant
    · show id' ∈ free ↔ _
      rw [hfree, List.mem_cons]
      by_cases hid : id' = id
      · simp [hid, hnodup.1]
      · simp [hid]

/-- A frame over held nodes may be pushed. -/
theorem push_safe (hm : m.Sane) (hframes : m.Carries frames)
    (hframe : m.Holds frame.nodes ∧ frame.Fits) :
    Safe m (push setting frame frames) fun frames' m' => m'.Carries frames' :=
  .ite (fun _ => .fail (by decide)) fun _ => .pure hm (carries_cons.2 ⟨hframe, hframes⟩)

/-- A binding of a scope leads to an occupied slot. -/
theorem Machine.Sane.binding {current : Environment} {binder : Nat} {b : Nat × ThunkId}
    (hm : m.Sane) (hat : m.environmentAt scope = some current)
    (hfind : current.bindings.find? (·.1 = binder) = some b) : m.Occupied (.Thunk b.2) :=
  hm.environment hat _ (List.mem_append_right _
    (List.mem_map.2 ⟨b, List.mem_of_find?_eq_some hfind, rfl⟩))

/-- The parent of a live environment is occupied. -/
theorem Machine.Sane.parent {current : Environment} {parent : EnvId} (hm : m.Sane)
    (hat : m.environmentAt scope = some current) (hparent : current.parent = some parent) :
    m.Occupied (.Environment parent) :=
  hm.environment hat _ (List.mem_append_left _ (by simp [hparent]))

/-- The walk to the binder of a variable ends at an occupied thunk. -/
theorem variableLoop_safe {gas binder : Nat} (hm : m.Sane)
    (hscope : m.Occupied (.Environment scope)) :
    Safe m (variableLoop gas scope binder) fun id m' => m'.Occupied (.Thunk id) := by
  induction gas generalizing m scope with
  | zero => exact .fail (by decide)
  | succ gas ih =>
    refine .bind (tick_safe hm) fun _ m' hm' hext _ => .get_bind ?_
    obtain ⟨current, hat⟩ := occupied_environment_iff.1 (hext.occupied _ hscope)
    simp only [hat]
    split
    · next hfind => exact .pure hm' (hm'.binding hat hfind)
    · split
      · exact .fail (by decide)
      · next parent hparent => exact ih hm' (hm'.parent hat hparent)

end Primitives

end TeamyBend.Runtime.Evaluator
