/-
# Who holds a network handle

A handle is in the table of `network.rs`, with a request that is parked, or in the hands of the
step in progress.  Between any two calls of the request code the handles given out so far are
those that are held and those that were closed, each once (`Owned.handles`), the bytes that are
kept are those of the parked requests, and the two limits hold.

Each operation of the network says what it does to the held handles and to the kept bytes; the
invariant of a call is then a comparison of counts.
-/
import TeamyBend.Runtime.NetworkDesk
import TeamyBend.Runtime.Conservation
import TeamyBend.Library.Ledger

namespace TeamyBend.Runtime

open Library (entries_perm_erase keys_perm_erase keys_insert_new)

variable {T : Type}

/-! ## 1. What the operations do to handles and bytes -/

namespace Network

/-- The handles in the table and with the parked requests. -/
def State.handles (s : State T) : List Nat :=
  s.resources.keys ++ s.pending.entries.filterMap fun entry => entry.2.handle

/-- The bytes that the parked requests keep. -/
def State.parkedBytes (s : State T) : Nat :=
  (s.pending.entries.map fun entry => entry.2.operation.bytes).sum

/-- How many places of the arena are taken. -/
def State.taken (s : State T) : Nat := s.resources.keys.length + s.pending.keys.length

namespace State

variable {s s' : State T} {handle order : Nat} {resource : Resource} {request : Request T}

theorem restore_spec (h : s.restore handle resource = .ok s') :
    s'.handles.Perm (handle :: s.handles) ∧ s'.taken = s.taken + 1 ∧ s.taken < arenaLimit ∧
      s'.pending = s.pending ∧ s'.next = s.next ∧ s'.retainedBytes = s.retainedBytes := by
  unfold restore at h
  split at h
  · cases h
  · rename_i hroom
    split at h
    · cases h
    · rename_i hnew
      cases h
      refine ⟨?_, ?_, by rw [taken]; omega, rfl, rfl, rfl⟩
      · rw [handles, keys_insert_new hnew, handles, List.cons_append]
      · simp only [taken, keys_insert_new hnew, List.length_cons]
        omega

theorem insert_spec (h : s.insert resource = .ok (handle, s')) :
    s'.handles.Perm (s.next :: s.handles) ∧ s'.taken = s.taken + 1 ∧ s.taken < arenaLimit ∧
      s'.pending = s.pending ∧ s'.next = s.next + 1 ∧ s'.retainedBytes = s.retainedBytes := by
  unfold insert at h
  split at h
  · cases h
  · obtain ⟨restored, hrestore, h⟩ := Driver.bind_eq_ok h
    cases h
    exact restore_spec hrestore

theorem take_spec (h : s.take handle = .ok (resource, s')) :
    s.handles.Perm (handle :: s'.handles) ∧ s.taken = s'.taken + 1 ∧
      s'.pending = s.pending ∧ s'.next = s.next ∧ s'.retainedBytes = s.retainedBytes := by
  unfold take at h
  split at h
  · cases h
  · rename_i hlookup
    cases h
    have hmem : handle ∈ s.resources := by
      rw [← AList.lookup_isSome, hlookup]
      rfl
    have hkeys := keys_perm_erase hmem
    refine ⟨hkeys.append_right _, ?_, rfl, rfl, rfl⟩
    have hlength := hkeys.length_eq
    rw [List.length_cons] at hlength
    simp only [taken]
    omega

theorem park_spec (h : s.park order request = .ok s') :
    s'.handles.Perm (request.handle.toList ++ s.handles) ∧
      s'.parkedBytes = request.operation.bytes + s.parkedBytes ∧
      s'.retainedBytes = s.retainedBytes + request.operation.bytes ∧
      s'.retainedBytes ≤ Network.retainedBytes ∧ s'.taken = s.taken + 1 ∧
      s.taken < arenaLimit ∧ order ∉ s.pending ∧
      s'.pending = s.pending.insert order request ∧ s'.next = s.next := by
  unfold park at h
  split at h
  · cases h
  · rename_i hroom
    split at h
    · cases h
    · rename_i hbytes
      split at h
      · cases h
      · rename_i hnew
        cases h
        refine ⟨?_, ?_, rfl, Nat.not_lt.mp hbytes, ?_, by rw [taken]; omega, hnew, rfl, rfl⟩
        · rw [handles, AList.entries_insert_of_notMem hnew, List.filterMap_cons]
          cases request.handle with
          | none => exact .refl _
          | some handle => exact List.perm_middle
        · rw [parkedBytes, AList.entries_insert_of_notMem hnew, List.map_cons, List.sum_cons,
            parkedBytes]
        · simp only [taken, keys_insert_new hnew, List.length_cons]
          omega

theorem takePending_spec (h : s.takePending order = .ok (request, s')) :
    s.handles.Perm (request.handle.toList ++ s'.handles) ∧
      s.parkedBytes = request.operation.bytes + s'.parkedBytes ∧
      s'.retainedBytes = s.retainedBytes - request.operation.bytes ∧ s.taken = s'.taken + 1 ∧
      s.pending.lookup order = some request ∧ s'.pending = s.pending.erase order ∧
      s'.next = s.next := by
  have hlookup := Driver.Machine.takePending_lookup h
  unfold takePending at h
  rw [hlookup] at h
  cases h
  have hentries := entries_perm_erase hlookup
  have hmem : order ∈ s.pending := by
    rw [← AList.lookup_isSome, hlookup]
    rfl
  have hlength := (keys_perm_erase hmem).length_eq
  rw [List.length_cons] at hlength
  refine ⟨?_, ?_, rfl, by simp only [taken]; omega, hlookup, rfl, rfl⟩
  · refine ((hentries.filterMap _).append_left s.resources.keys).trans ?_
    rw [List.filterMap_cons, handles]
    cases request.handle with
    | none => exact .refl _
    | some handle => exact List.perm_middle
  · rw [parkedBytes, (hentries.map _).sum_nat, List.map_cons, List.sum_cons, parkedBytes]

end State

end Network

/-! ## 2. The invariant -/

namespace Driver

namespace Desk

/-- The handles that are somewhere. -/
def held (d : Desk T) : List Nat := d.network.handles ++ (d.hand.bind Prod.snd).toList

/-- **The invariant of the network.** -/
structure Owned (d : Desk T) : Prop where
  /-- Every handle that was given out is held or closed, once. -/
  handles : (d.held ++ d.closed).Perm (List.range d.network.next)
  bytes : d.network.retainedBytes = d.network.parkedBytes
  budget : d.network.retainedBytes ≤ Network.retainedBytes
  room : d.network.taken ≤ arenaLimit
  /-- A connection has no handle while it waits. -/
  connecting : ∀ order request, d.network.pending.lookup order = some request →
    request.operation = .Connect → request.handle = none

variable {d d' : Desk T}

theorem held_empty (h : d.hand = none) : d.held = d.network.handles := by
  rw [held, h]
  exact List.append_nil _

theorem held_some {resource : Network.Resource} {handle : Option Nat}
    (h : d.hand = some (resource, handle)) : d.held = d.network.handles ++ handle.toList := by
  rw [held, h]
  rfl

theorem owned_default : (default : Desk T).Owned where
  handles := .refl _
  bytes := rfl
  budget := Nat.zero_le _
  room := Nat.zero_le _
  connecting order request h _ := by cases h

/-- The parked requests stay, and so do all handles but for the change that is stated. -/
theorem Owned.sameParked (h : d.Owned)
    (hhandles : (d'.held ++ d'.closed).Perm (List.range d'.network.next))
    (hroom : d'.network.taken ≤ arenaLimit) (hpending : d'.network.pending = d.network.pending)
    (hretained : d'.network.retainedBytes = d.network.retainedBytes) : d'.Owned where
  handles := hhandles
  bytes := by
    rw [hretained, h.bytes, Network.State.parkedBytes, Network.State.parkedBytes, hpending]
  budget := by
    rw [hretained]
    exact h.budget
  room := hroom
  connecting := by
    rw [hpending]
    exact h.connecting

/-- The same handles are somewhere. -/
theorem Owned.moved (h : d.Owned) (hheld : d'.held.Perm d.held)
    (hclosed : d'.closed = d.closed) (hnext : d'.network.next = d.network.next) :
    (d'.held ++ d'.closed).Perm (List.range d'.network.next) := by
  rw [hclosed, hnext]
  exact (hheld.append_right _).trans h.handles

/-- One more handle is somewhere, and it is the next one. -/
theorem Owned.issued (h : d.Owned) (hheld : d'.held.Perm (d.network.next :: d.held))
    (hclosed : d'.closed = d.closed) (hnext : d'.network.next = d.network.next + 1) :
    (d'.held ++ d'.closed).Perm (List.range d'.network.next) := by
  rw [hclosed, hnext, List.range_succ]
  calc
    (d'.held ++ d.closed).Perm (d.network.next :: (d.held ++ d.closed)) :=
      hheld.append_right d.closed
    List.Perm _ (d.network.next :: List.range d.network.next) := h.handles.cons _
    List.Perm _ (List.range d.network.next ++ [d.network.next]) :=
      (List.perm_append_singleton _ _).symm

/-- **Every call keeps the invariant.** -/
theorem Owned.act (h : d.Owned) (hact : Act d d') : d'.Owned := by
  cases hact with
  | tasks | sleep | wake =>
    exact ⟨h.handles, h.bytes, h.budget, h.room, h.connecting⟩
  | insert hinsert =>
    obtain ⟨hhandles, htaken, hroom, hpending, hnext, hretained⟩ :=
      Network.State.insert_spec hinsert
    exact h.sameParked (h.issued (hhandles.append_right _) rfl hnext) (by simp only; omega)
      hpending hretained
  | take hhand htake =>
    obtain ⟨hhandles, htaken, hpending, hnext, hretained⟩ := Network.State.take_spec htake
    have hroom := h.room
    refine h.sameParked (h.moved ?_ rfl hnext) (by simp only; omega) hpending hretained
    rw [held_empty hhand]
    exact (List.perm_append_singleton _ _).trans hhandles.symm
  | receive hhand =>
    refine h.sameParked (h.moved ?_ rfl rfl) h.room rfl rfl
    rw [held_empty hhand]
    exact .of_eq (List.append_nil _)
  | restore hhand hrestore =>
    obtain ⟨hhandles, htaken, hroom, hpending, hnext, hretained⟩ :=
      Network.State.restore_spec hrestore
    refine h.sameParked (h.moved ?_ rfl hnext) (by simp only; omega) hpending hretained
    rw [held_empty rfl, held_some hhand]
    exact hhandles.trans (List.perm_append_singleton _ _).symm
  | park hhand hconnect hreserve hpark =>
    obtain ⟨hhandles, hparked, hretained, hbudget, htaken, hroom, hnew, hpending, hnext⟩ :=
      Network.State.park_spec hpark
    have hbytes := h.bytes
    refine ⟨h.moved ?_ rfl hnext, by simp only; omega, hbudget, by simp only; omega, ?_⟩
    · rw [held_empty rfl, held_some hhand]
      exact hhandles.trans List.perm_append_comm
    · rename_i order request _ _
      intro order' request' hlookup hoperation
      rw [hpending] at hlookup
      by_cases heq : order' = order
      · subst heq
        rw [AList.lookup_insert] at hlookup
        cases hlookup
        exact hconnect hoperation
      · rw [AList.lookup_insert_ne heq] at hlookup
        exact h.connecting order' request' hlookup hoperation
  | takePending hhand htake =>
    obtain ⟨hhandles, hparked, hretained, htaken, _, hpending, hnext⟩ :=
      Network.State.takePending_spec htake
    have hbytes := h.bytes
    have hbudget := h.budget
    have hroom := h.room
    refine ⟨h.moved ?_ rfl hnext, by simp only; omega, by simp only; omega, by simp only; omega,
      ?_⟩
    · rw [held_empty hhand]
      exact List.perm_append_comm.trans hhandles.symm
    · rename_i order request _ _
      intro order' request' hlookup hoperation
      rw [hpending] at hlookup
      by_cases heq : order' = order
      · subst heq
        rw [AList.lookup_erase] at hlookup
        cases hlookup
      · rw [AList.lookup_erase_ne heq] at hlookup
        exact h.connecting order' request' hlookup hoperation
  | settle hhand hinsert =>
    obtain ⟨hhandles, htaken, hroom, hpending, hnext, hretained⟩ :=
      Network.State.insert_spec hinsert
    refine h.sameParked (h.issued ?_ rfl hnext) (by simp only; omega) hpending hretained
    rw [held_empty rfl, held_some hhand]
    exact hhandles.trans (.of_eq (List.append_nil _).symm)
  | giveUp hhand =>
    refine h.sameParked (h.moved ?_ rfl rfl) h.room rfl rfl
    rw [held_empty rfl, held_some hhand]
    exact .of_eq (List.append_nil _).symm
  | close hhand =>
    refine h.sameParked ?_ h.room rfl rfl
    have hall := h.handles
    rw [held_some hhand, List.append_assoc] at hall
    rwa [held_empty rfl]

/-- How often a handle is in the table, with a parked request, in the hands and closed. -/
theorem Owned.count (h : d.Owned) (handle : Nat) :
    d.network.resources.keys.count handle +
        (d.network.pending.entries.filterMap fun entry => entry.2.handle).count handle +
        (d.hand.bind Prod.snd).toList.count handle + d.closed.count handle =
      if handle < d.network.next then 1 else 0 := by
  have hcount := h.handles.count_eq handle
  simp only [held, Network.State.handles, List.count_append] at hcount
  rw [hcount, List.nodup_range.count]
  simp only [List.mem_range]

/-- The error of `take`. -/
def closedOrPending : KernelError :=
  .new "native network handle is closed or belongs to a pending operation"

/-- The handle of a parked request is not in the table. -/
theorem Owned.refused (h : d.Owned) {order handle : Nat} {parked : Network.Request T}
    (hlookup : d.network.pending.lookup order = some parked)
    (hhandle : parked.handle = some handle) : d.network.take handle = .error closedOrPending := by
  have hnew : handle ∉ d.network.resources := by
    intro hmem
    have hcount := h.count handle
    have hparked : handle ∈ d.network.pending.entries.filterMap fun entry => entry.2.handle :=
      List.mem_filterMap.mpr ⟨⟨order, parked⟩, List.of_mem_dlookup hlookup, hhandle⟩
    have htable := List.count_pos_iff.mpr (AList.mem_keys.mp hmem)
    have hpending := List.count_pos_iff.mpr hparked
    split at hcount <;> omega
  rw [Network.State.take, AList.lookup_eq_none.mpr hnew]
  rfl

/-- **Between any two calls the invariant holds.** -/
theorem Reached.owned (h : d.Reached) : d.Owned := by
  induction h with
  | refl => exact owned_default
  | tail _ hact ih => exact ih.act hact

end Desk

/-! ## 3. Runs of the driver -/

/-- The socket or listener that a request is for. -/
def Foreign.named : Foreign T → Option Nat
  | TcpAccept handle | TcpSend handle _ | TcpRecv handle _ | UdpSendTo handle _ _ _
  | UdpRecvFrom handle _ | UdpPoll handle | SocketClose handle | ListenerClose handle =>
    some handle
  | _ => none

namespace Machine

variable {m : Machine T} {entry : T}

/-- **Every state of a run is a desk with empty hands** that the calls of the run reached. -/
theorem Reached.desk (h : Reached entry m) : ∃ closed, (m.desk closed).Reached := by
  induction h with
  | start h =>
    obtain ⟨scheduler, hspawn, h⟩ := lift_bind_eq_ok h
    cases h
    obtain ⟨htimers, hnext⟩ := spawn_waits hspawn
    exact ⟨[], .single (.tasks htimers hnext)⟩
  | step w _ h ih =>
    obtain ⟨closed, hreached⟩ := ih
    obtain ⟨closed', hacts⟩ := step_acts h hreached.owned.connecting closed
    exact ⟨closed', hreached.trans hacts⟩

/-- Every request for a socket or listener takes it from the table first. -/
theorem ioRequest_refused {w : World T} {request : Foreign T} {continuation : T} {handle : Nat}
    {e : KernelError} (hnamed : request.named = some handle)
    (h : m.network.take handle = .error e) :
    ioRequest w m request continuation = .error (.kernel e) := by
  cases request <;> cases hnamed <;>
    simp only [ioRequest, takeAndPark, takeAndAdvance, pollNetwork, closeResource, h, lift] <;> rfl

end Machine

namespace Desk

/-- **Network ownership and budget.**  Every state of a run of the driver is reached by the calls
of its requests, and it refuses a request for a handle that a parked request has.  Between any two
calls each handle that was given out and not closed is in exactly one place, the table does not
give out the handle of a parked request, the kept bytes are those of the parked requests (so that
taking one off never underflows) within the limit, and so is the number of descriptors in the
table and parked requests. -/
theorem network_ownership (entry : T) :
    (∀ m, Machine.Reached entry m → (∃ closed, (m.desk closed).Reached) ∧
      ∀ w request continuation handle order parked, request.named = some handle →
        m.network.pending.lookup order = some parked → parked.handle = some handle →
        Machine.ioRequest w m request continuation = .error (.kernel closedOrPending)) ∧
    ∀ d : Desk T, d.Reached →
      (∀ handle, d.network.resources.keys.count handle +
          (d.network.pending.entries.filterMap fun entry => entry.2.handle).count handle +
          (d.hand.bind Prod.snd).toList.count handle + d.closed.count handle =
        if handle < d.network.next then 1 else 0) ∧
      (∀ order parked handle, d.network.pending.lookup order = some parked →
        parked.handle = some handle → d.network.take handle = .error closedOrPending) ∧
      d.network.retainedBytes =
        (d.network.pending.entries.map fun entry => entry.2.operation.bytes).sum ∧
      d.network.retainedBytes ≤ Network.retainedBytes ∧
      (∀ order request network, d.network.takePending order = .ok (request, network) →
        network.retainedBytes + request.operation.bytes = d.network.retainedBytes) ∧
      d.network.resources.keys.length + d.network.pending.keys.length ≤ arenaLimit := by
  refine ⟨fun m h => ?_, fun d h => ?_⟩
  · obtain ⟨closed, hreached⟩ := h.desk
    refine ⟨⟨closed, hreached⟩, ?_⟩
    intro w request continuation handle order parked hnamed hlookup hhandle
    exact Machine.ioRequest_refused hnamed (hreached.owned.refused hlookup hhandle)
  · have howned := h.owned
    refine ⟨howned.count, fun order parked handle => howned.refused, howned.bytes,
      howned.budget, fun order request network htake => ?_, howned.room⟩
    obtain ⟨-, hparked, hretained, -⟩ := Network.State.takePending_spec htake
    have hbytes := howned.bytes
    omega

/-- A socket that waits for a datagram of at most 100 bytes cannot be closed. -/
theorem network_ownership_receiving : ∃ m : Machine Nat, m.network.pending.keys = [0] ∧
    m.network.retainedBytes = 100 ∧
    Machine.ioRequest (Machine.plainWorld .Emit) m (.SocketClose 0) 0 =
      .error (.kernel closedOrPending) :=
  ⟨_, rfl, rfl,
    ((network_ownership 0).1 _
      (.step (Machine.plainWorld (.Request (.UdpRecvFrom 0 100) 0))
        (.step (Machine.plainWorld (.Request .UdpBind 0))
          (.step (Machine.plainWorld .Emit) (.start rfl) rfl) rfl) rfl)).2 _ _ _ 0 0 _
      rfl rfl rfl⟩

end Desk

end Driver

end TeamyBend.Runtime
