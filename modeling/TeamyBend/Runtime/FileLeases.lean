/-
# Every file descriptor is closed once

The busy count of a row is the number of jobs that hold it, so a row is retired, and its descriptor
closed, when no job does.  The descriptors that are open are those of the rows, with those that
`open` returned and that are not in their row yet: hence no two rows have the same, and what was
opened is closed or still open.  After the end of the host every row that lives is held, so nothing
is open when the last job is over.

The invariant is kept per part of the table: the rows and their leases (`Rows`), the idle list
(`Idle`), the descriptors (`Owned`) and the handles of the program (`Handled`).
-/
import Mathlib.Data.List.ReduceOption
import TeamyBend.Runtime.FileTable

namespace TeamyBend.Runtime.FileTable

open Library (Trade)

/-! ## 1. Jobs and what they hold -/

/-- A job on its way. -/
inductive Entry where
  /-- The call was not made. -/
  | waiting (job : Job)
  /-- A descriptor is not in its row yet. -/
  | opened (job : Job) (made : Option Nat)
  | called (job : Job) (made : Option Nat)
  /-- The lease is back, and the program was not told. -/
  | result (made : Option Nat)

namespace Entry

/-- The row that the job holds. -/
def row : Entry → Option Nat
  | waiting job | opened job _ | called job _ => job.row
  | result _ => none

/-- The row that an open is going to fill. -/
def blank : Entry → Option Nat
  | waiting ⟨.open, row⟩ | opened ⟨_, row⟩ _ => row
  | _ => none

/-- The descriptor that is not in its row. -/
def transit : Entry → Option Nat
  | opened _ made => made
  | _ => none

/-- The handle that the program gets. -/
def made : Entry → Option Nat
  | called _ made | result made => made
  | _ => none

end Entry

def Worker.entries : Worker → List Entry
  | running job => [.waiting job]
  | opened job made => [.opened job made]
  | called job made => [.called job made]
  | finished made => [.result made]
  | leaving => []

def Vm.entries : Vm → List Entry
  | unstarted job => [.waiting job]
  | _ => []

namespace State

def entries (s : State) : List Entry :=
  s.jobs.map .waiting ++ s.vm.entries ++ s.workers.flatMap Worker.entries ++ s.completed.map .result

/-- The rows that queued and running jobs hold. -/
def leases (s : State) : List Nat := s.entries.filterMap Entry.row

def blanks (s : State) : List Nat := s.entries.filterMap Entry.blank

def transit (s : State) : List Nat := s.entries.filterMap Entry.transit

/-- The handles of the program, with those that it is going to get. -/
def held (s : State) : List Nat := s.handles ++ s.entries.filterMap Entry.made

end State

/-- An open that was not published holds its row. -/
theorem count_blank_le (r : Nat) (entries : List Entry) :
    (entries.filterMap Entry.blank).count r ≤ (entries.filterMap Entry.row).count r := by
  induction entries with
  | nil => exact Nat.le_refl _
  | cons entry entries ih =>
    have hcons : entry.blank = none ∨ entry.blank = entry.row := by
      unfold Entry.blank Entry.row
      split <;> simp
    cases hrow : entry.row with
    | none =>
      have hblank : entry.blank = none := by
        rcases hcons with hnone | hsame
        · exact hnone
        · rw [hsame, hrow]
      rw [List.filterMap_cons_none hblank, List.filterMap_cons_none hrow]
      exact ih
    | some q =>
      rw [List.filterMap_cons_some hrow]
      rcases hcons with hnone | hsame
      · rw [List.filterMap_cons_none hnone]
        exact Nat.le_trans ih List.count_le_count_cons
      · rw [List.filterMap_cons_some (hsame.trans hrow), List.count_cons, List.count_cons]
        omega

/-! ## 2. Rows and leases -/

/-- The row after one was set. -/
theorem file_of_set {files : List File} {r q : Nat} {file file' new : File}
    (hfile : files[r]? = some file) (h : (files.set r file')[q]? = some new) :
    q = r ∧ new = file' ∨ q ≠ r ∧ files[q]? = some new := by
  obtain ⟨hlt, -⟩ := List.getElem?_eq_some_iff.mp hfile
  by_cases heq : r = q
  · subst heq
    rw [List.getElem?_set_self hlt] at h
    cases h
    exact .inl ⟨rfl, rfl⟩
  · rw [List.getElem?_set_ne heq] at h
    exact .inr ⟨Ne.symm heq, h⟩

theorem getElem?_set_of_some {files : List File} {r : Nat} {file : File}
    (hfile : files[r]? = some file) (file' : File) : (files.set r file')[r]? = some file' :=
  List.getElem?_set_self (List.getElem?_eq_some_iff.mp hfile).1

/-- The rows, as the jobs hold them. -/
structure Rows (files : List File) (leases blanks : List Nat) : Prop where
  busy : ∀ (r : Nat) (file : File), files[r]? = some file → file.busy = leases.count r
  bound : ∀ r ∈ leases, r < files.length
  dead : ∀ (r : Nat) (file : File), files[r]? = some file → file.live = false →
    file.busy = 0 ∧ file.descriptor = none
  /-- A row without a descriptor is being opened. -/
  empty : ∀ (r : Nat) (file : File), files[r]? = some file → file.live = true →
    file.descriptor = none → 0 < file.busy
  /-- An open that was not published holds an empty row alone. -/
  blank : ∀ r ∈ blanks, leases.count r = 1 ∧
    ∃ file, files[r]? = some file ∧ file.live = true ∧ file.descriptor = none ∧
      file.closing = false

section Rows

variable {files : List File} {leases leases' blanks blanks' : List Nat} {r : Nat}
  {file file' : File}

theorem Rows.perm (h : Rows files leases blanks) (hleases : leases'.Perm leases)
    (hblanks : ∀ q ∈ blanks', q ∈ blanks) : Rows files leases' blanks' where
  busy q file hfile := by rw [hleases.count_eq, h.busy q file hfile]
  bound q hq := h.bound q (hleases.mem_iff.mp hq)
  dead := h.dead
  empty := h.empty
  blank q hq := by
    rw [hleases.count_eq]
    exact h.blank q (hblanks q hq)

/-- **One row changes, with the leases on it.** -/
theorem Rows.set (h : Rows files leases blanks) (hfile : files[r]? = some file)
    (hbusy : file'.busy = leases'.count r)
    (hother : ∀ q, q ≠ r → leases'.count q = leases.count q)
    (hdead : file'.live = false → file'.busy = 0 ∧ file'.descriptor = none)
    (hempty : file'.live = true → file'.descriptor = none → 0 < file'.busy)
    (hblanks : ∀ q ∈ blanks', q ≠ r → q ∈ blanks)
    (hblank : r ∈ blanks' → leases'.count r = 1 ∧ file'.live = true ∧ file'.descriptor = none ∧
      file'.closing = false) :
    Rows (files.set r file') leases' blanks' where
  busy q new hnew := by
    rcases file_of_set hfile hnew with ⟨rfl, rfl⟩ | ⟨hne, hold⟩
    · exact hbusy
    · rw [hother q hne, h.busy q new hold]
  bound q hq := by
    rw [List.length_set]
    by_cases heq : q = r
    · rw [heq]
      exact (List.getElem?_eq_some_iff.mp hfile).1
    · refine h.bound q (List.count_pos_iff.mp ?_)
      rw [← hother q heq]
      exact List.count_pos_iff.mpr hq
  dead q new hnew := by
    rcases file_of_set hfile hnew with ⟨rfl, rfl⟩ | ⟨-, hold⟩
    · exact hdead
    · exact h.dead q new hold
  empty q new hnew := by
    rcases file_of_set hfile hnew with ⟨rfl, rfl⟩ | ⟨-, hold⟩
    · exact hempty
    · exact h.empty q new hold
  blank q hq := by
    by_cases heq : q = r
    · subst heq
      exact ⟨(hblank hq).1, file', getElem?_set_of_some hfile file', (hblank hq).2⟩
    · rw [hother q heq, List.getElem?_set_ne (Ne.symm heq)]
      exact h.blank q (hblanks q hq heq)

theorem Rows.append (h : Rows files leases blanks) :
    Rows (files ++ [⟨none, 0, false, false⟩]) leases blanks := by
  have hcases : ∀ (q : Nat) (new : File), (files ++ [⟨none, 0, false, false⟩])[q]? = some new →
      files[q]? = some new ∨ q = files.length ∧ new = ⟨none, 0, false, false⟩ := by
    intro q new hnew
    rcases Nat.lt_or_ge q files.length with hlt | hge
    · rw [List.getElem?_append_left hlt] at hnew
      exact .inl hnew
    · rw [List.getElem?_append_right hge, List.getElem?_singleton] at hnew
      split at hnew
      · cases hnew
        exact .inr ⟨by omega, rfl⟩
      · cases hnew
  refine ⟨fun q new hnew => ?_, fun q hq => ?_, fun q new hnew hlive => ?_,
    fun q new hnew hlive hnone => ?_, fun q hq => ?_⟩
  · rcases hcases q new hnew with hold | ⟨rfl, rfl⟩
    · exact h.busy q new hold
    · refine (List.count_eq_zero.mpr fun hmem => ?_).symm
      exact Nat.lt_irrefl _ (h.bound _ hmem)
  · rw [List.length_append]
    exact Nat.lt_add_right _ (h.bound q hq)
  · rcases hcases q new hnew with hold | ⟨-, rfl⟩
    · exact h.dead q new hold hlive
    · exact ⟨rfl, rfl⟩
  · rcases hcases q new hnew with hold | ⟨-, rfl⟩
    · exact h.empty q new hold hlive hnone
    · cases hlive
  · obtain ⟨hcount, file, hfile, hrow⟩ := h.blank q hq
    refine ⟨hcount, file, ?_, hrow⟩
    rw [List.getElem?_append_left (List.getElem?_eq_some_iff.mp hfile).1, hfile]

/-- A row that is held lives. -/
theorem Rows.leased (h : Rows files leases blanks) (hr : r ∈ leases) :
    ∃ file, files[r]? = some file ∧ file.live = true ∧ 0 < file.busy := by
  have hfile := List.getElem?_eq_getElem (h.bound r hr)
  have hbusy := h.busy r _ hfile
  have hcount := List.count_pos_iff.mpr hr
  refine ⟨_, hfile, ?_, by omega⟩
  by_contra hlive
  have hdead := h.dead r _ hfile (by simpa using hlive)
  omega

end Rows

/-! ## 3. The idle list -/

/-- A row is idle if it does not live and the program has not taken it. -/
structure Idle (files : List File) (idle : List Nat) (taken : Option Nat) : Prop where
  nodup : idle.Nodup
  mem : ∀ r, r ∈ idle ↔ (∃ file, files[r]? = some file ∧ file.live = false) ∧ taken ≠ some r
  taken : ∀ r, taken = some r → ∃ file, files[r]? = some file ∧ file.live = false

section Idle

variable {files : List File} {idle : List Nat} {taken : Option Nat} {r : Nat} {file file' : File}

theorem dead_set (hfile : files[r]? = some file) (q : Nat) :
    (∃ new, (files.set r file')[q]? = some new ∧ new.live = false) ↔
      q = r ∧ file'.live = false ∨ q ≠ r ∧ ∃ old, files[q]? = some old ∧ old.live = false := by
  constructor
  · rintro ⟨new, hnew, hlive⟩
    rcases file_of_set hfile hnew with ⟨rfl, rfl⟩ | ⟨hne, hold⟩
    · exact .inl ⟨rfl, hlive⟩
    · exact .inr ⟨hne, new, hold, hlive⟩
  · rintro (⟨rfl, hlive⟩ | ⟨hne, old, hold, hlive⟩)
    · exact ⟨file', getElem?_set_of_some hfile file', hlive⟩
    · exact ⟨old, by rw [List.getElem?_set_ne (Ne.symm hne), hold], hlive⟩

theorem Idle.set (h : Idle files idle taken) (hfile : files[r]? = some file)
    (hlive : file'.live = file.live) : Idle (files.set r file') idle taken := by
  have hsame : ∀ q : Nat,
      (∃ new : File, (files.set r file')[q]? = some new ∧ new.live = false) ↔
        ∃ old : File, files[q]? = some old ∧ old.live = false := by
    intro q
    rw [dead_set hfile, hlive]
    by_cases heq : q = r
    · subst heq
      simp [hfile]
    · simp [heq]
  refine ⟨h.nodup, fun q => ?_, fun q hq => ?_⟩
  · rw [hsame]
    exact h.mem q
  · rw [hsame]
    exact h.taken q hq

/-- A row that lives retires. -/
theorem Idle.retire (h : Idle files idle taken) (hfile : files[r]? = some file)
    (hlive : file.live = true) (hlive' : file'.live = false) :
    Idle (files.set r file') (r :: idle) taken := by
  have hlives : ∀ old, files[r]? = some old → old.live = false → False := by
    intro old hold hdead
    rw [hfile] at hold
    cases hold
    rw [hlive] at hdead
    cases hdead
  have hnot : taken ≠ some r := by
    intro htaken
    obtain ⟨old, hold, hdead⟩ := h.taken r htaken
    exact hlives old hold hdead
  refine ⟨List.nodup_cons.mpr ⟨fun hmem => ?_, h.nodup⟩, fun q => ?_, fun q hq => ?_⟩
  · obtain ⟨⟨old, hold, hdead⟩, -⟩ := (h.mem r).mp hmem
    exact hlives old hold hdead
  · rw [dead_set hfile, List.mem_cons, h.mem]
    by_cases heq : q = r
    · subst heq
      simp [hlive', hnot]
    · simp [heq]
  · rw [dead_set hfile]
    refine .inr ⟨fun heq => hnot (heq ▸ hq), h.taken q hq⟩

/-- The row that the program took lives. -/
theorem Idle.open (h : Idle files idle (some r)) (hfile : files[r]? = some file)
    (hlive : file'.live = true) : Idle (files.set r file') idle none := by
  refine ⟨h.nodup, fun q => ?_, fun q hq => by cases hq⟩
  rw [dead_set hfile, h.mem]
  by_cases heq : q = r
  · subst heq
    simp [hlive]
  · simp [heq, Ne.symm heq]

theorem Idle.pop (h : Idle files idle none) : Idle files idle.tail idle.head? := by
  cases idle with
  | nil => exact h
  | cons r idle =>
    obtain ⟨hnotin, hnodup⟩ := List.nodup_cons.mp h.nodup
    refine ⟨hnodup, fun q => ?_, fun q hq => ?_⟩
    · have hmem := h.mem q
      simp only [List.mem_cons] at hmem
      simp only [List.tail_cons, List.head?_cons, ne_eq, Option.some.injEq]
      by_cases heq : q = r
      · subst heq
        simp [hnotin]
      · simp only [heq, false_or] at hmem
        rw [hmem]
        simp [Ne.symm heq]
    · cases hq
      exact ((h.mem r).mp List.mem_cons_self).1

theorem Idle.create (h : Idle files idle none) (hlive : file.live = false) :
    Idle (files ++ [file]) idle (some files.length) := by
  refine ⟨h.nodup, fun q => ?_, fun q hq => ?_⟩
  · rw [h.mem]
    rcases Nat.lt_trichotomy q files.length with hlt | rfl | hgt
    · rw [List.getElem?_append_left hlt]
      simp [Nat.ne_of_gt hlt]
    · simp
    · have hold : files[q]? = none := List.getElem?_eq_none (by omega)
      have hnew : (files ++ [file])[q]? = none := List.getElem?_eq_none (by simp; omega)
      simp [hold, hnew]
  · cases hq
    exact ⟨file, List.getElem?_concat_length .., hlive⟩

end Idle

/-! ## 4. Descriptors -/

/-- What is open is in the rows, or on its way to one. -/
structure Owned (system : System) (files : List File) (transit : List Nat) : Prop where
  owned : system.owned.Perm (files.filterMap File.descriptor ++ transit)
  nodup : system.owned.Nodup
  history : system.opened.Perm (system.closed ++ system.owned)
  stray : system.stray = []

section Owned

variable {system : System} {files : List File} {transit transit' : List Nat} {r d : Nat}
  {file file' : File}

/-- The descriptors of the rows, when one changes. -/
theorem descriptors_set (hfile : files[r]? = some file) (file' : File) :
    ((files.set r file').filterMap File.descriptor ++ file.descriptor.toList).Perm
      (files.filterMap File.descriptor ++ file'.descriptor.toList) := by
  have htrade := (Library.trade_set hfile file').filterMap File.descriptor
  have hone : ∀ file : File, [file].filterMap File.descriptor = file.descriptor.toList := by
    intro file
    cases hd : file.descriptor <;> simp [hd]
  rwa [hone, hone] at htrade

theorem Owned.perm (h : Owned system files transit) (htransit : transit'.Perm transit) :
    Owned system files transit' :=
  ⟨h.owned.trans (htransit.symm.append_left _), h.nodup, h.history, h.stray⟩

theorem Owned.set (h : Owned system files transit) (hfile : files[r]? = some file)
    (hsame : file'.descriptor = file.descriptor) : Owned system (files.set r file') transit := by
  have hperm := descriptors_set hfile file'
  rw [hsame] at hperm
  have hrows := (List.perm_append_right_iff _).mp hperm
  exact ⟨h.owned.trans (hrows.symm.append_right _), h.nodup, h.history, h.stray⟩

theorem Owned.append (h : Owned system files transit) (hnone : file.descriptor = none) :
    Owned system (files ++ [file]) transit := by
  refine ⟨?_, h.nodup, h.history, h.stray⟩
  simpa [List.filterMap_append, hnone] using h.owned

theorem Owned.opens (h : Owned system files transit) (hfresh : d ∉ system.owned) :
    Owned (system.opens d) files (d :: transit) where
  owned := (h.owned.cons d).trans List.perm_middle.symm
  nodup := List.nodup_cons.mpr ⟨hfresh, h.nodup⟩
  history := by
    refine ((List.perm_append_singleton d _).trans (h.history.cons d)).trans ?_
    exact List.perm_middle.symm
  stray := h.stray

/-- A descriptor that is open is closed. -/
theorem Owned.close (h : Owned system files transit) (hd : d ∈ system.owned)
    {files' : List File} (hrows : (d :: (files'.filterMap File.descriptor ++ transit)).Perm
      (files.filterMap File.descriptor ++ transit)) : Owned (system.close d) files' transit := by
  have hsplit : system.owned.Perm (d :: system.owned.erase d) := List.perm_cons_erase hd
  rw [System.close, if_pos hd]
  refine ⟨?_, h.nodup.erase d, ?_, h.stray⟩
  · exact List.Perm.cons_inv (hsplit.symm.trans (h.owned.trans hrows.symm))
  · refine h.history.trans ((hsplit.append_left _).trans ?_)
    simp only [List.append_assoc, List.singleton_append]
    exact .refl _

/-- What a row carries is open. -/
theorem Owned.mem (h : Owned system files transit) (hfile : files[r]? = some file)
    (hd : file.descriptor = some d) : d ∈ system.owned :=
  h.owned.mem_iff.mpr (List.mem_append_left _
    (List.mem_filterMap.mpr ⟨file, List.mem_of_getElem? hfile, hd⟩))

/-- **A row that retires closes what it carries.** -/
theorem Owned.retire (h : Owned system files transit) (hfile : files[r]? = some file)
    (hnone : file'.descriptor = none) :
    Owned (match file.descriptor with
      | some descriptor => system.close descriptor
      | none => system) (files.set r file') transit := by
  have hperm := descriptors_set hfile file'
  cases hd : file.descriptor with
  | none => exact h.set hfile (hnone.trans hd.symm)
  | some d =>
    refine h.close (h.mem hfile hd) ?_
    rw [hd, hnone, Option.toList_some, Option.toList_none, List.append_nil] at hperm
    refine List.Perm.trans ?_ (hperm.append_right transit)
    rw [List.append_assoc]
    exact List.perm_middle.symm

/-- A row gets the descriptor that was opened for it. -/
theorem Owned.publish {made : Option Nat} (h : Owned system files (transit ++ made.toList))
    (hfile : files[r]? = some file) (hnone : file.descriptor = none)
    (hmade : file'.descriptor = made) : Owned system (files.set r file') transit := by
  have hperm := descriptors_set hfile file'
  rw [hnone, hmade, Option.toList_none, List.append_nil] at hperm
  refine ⟨h.owned.trans ?_, h.nodup, h.history, h.stray⟩
  refine List.Perm.trans ?_ (hperm.append_right transit).symm
  rw [List.append_assoc]
  exact List.perm_append_comm.append_left _

/-- **No two rows carry the same descriptor.** -/
theorem Owned.unique (h : Owned system files transit) {r' : Nat} {other : File}
    (hfile : files[r]? = some file) (hother : files[r']? = some other)
    (hd : file.descriptor = some d) (hd' : other.descriptor = some d) : r = r' := by
  have hnodup : (files.filterMap File.descriptor).Nodup :=
    (h.owned.nodup_iff.mp h.nodup).of_append_left
  by_contra hne
  -- a row that loses its descriptor leaves the one of the other row
  have hperm := descriptors_set hfile { file with descriptor := none }
  rw [hd, Option.toList_some, Option.toList_none, List.append_nil] at hperm
  have hother' : (files.set r { file with descriptor := none })[r']? = some other := by
    rw [List.getElem?_set_ne hne, hother]
  have hmem : d ∈ (files.set r { file with descriptor := none }).filterMap File.descriptor :=
    List.mem_filterMap.mpr ⟨other, List.mem_of_getElem? hother', hd'⟩
  exact List.disjoint_of_nodup_append (hperm.nodup_iff.mpr hnodup) hmem List.mem_cons_self

end Owned

/-- A handle has a row, which is not closing. -/
structure Handled (files : List File) (held : List Nat) : Prop where
  nodup : held.Nodup
  row : ∀ d ∈ held, ∃ (r : Nat) (file : File), files[r]? = some file ∧ file.live = true ∧
    file.descriptor = some d ∧ file.closing = false

section Handled

variable {files : List File} {held held' : List Nat} {r : Nat} {file file' : File}

theorem Handled.set (h : Handled files held) (hfile : files[r]? = some file)
    (hnodup : held'.Nodup) (hsub : ∀ d ∈ held', d ∈ held)
    (hkeep : ∀ d ∈ held', file.live = true → file.descriptor = some d → file.closing = false →
      file'.live = true ∧ file'.descriptor = some d ∧ file'.closing = false) :
    Handled (files.set r file') held' := by
  refine ⟨hnodup, fun d hd => ?_⟩
  obtain ⟨q, old, hold, hlive, hdescriptor, hclosing⟩ := h.row d (hsub d hd)
  by_cases heq : r = q
  · subst heq
    rw [hfile] at hold
    cases hold
    exact ⟨r, file', getElem?_set_of_some hfile file', hkeep d hd hlive hdescriptor hclosing⟩
  · exact ⟨q, old, by rw [List.getElem?_set_ne heq, hold], hlive, hdescriptor, hclosing⟩

theorem Handled.perm (h : Handled files held) (hheld : held'.Perm held) : Handled files held' :=
  ⟨hheld.nodup_iff.mpr h.nodup, fun d hd => h.row d (hheld.mem_iff.mp hd)⟩

end Handled

/-- Every row that lives is held. -/
def Swept (files : List File) : Prop :=
  ∀ (r : Nat) (file : File), files[r]? = some file → file.live = true → 0 < file.busy

theorem Swept.set {files : List File} {r : Nat} {file file' : File} (h : Swept files)
    (hfile : files[r]? = some file) (hbusy : file'.live = true → 0 < file'.busy) :
    Swept (files.set r file') := by
  intro q new hnew
  rcases file_of_set hfile hnew with ⟨-, rfl⟩ | ⟨-, hold⟩
  · exact hbusy
  · exact h q new hold

/-! ## 5. The table -/

/-- **The invariant of the table.** -/
structure Sound (host : Host) (taken : Option Nat) (leases blanks transit held : List Nat)
    (swept : Bool) : Prop where
  rows : Rows host.files leases blanks
  idle : Idle host.files host.idle taken
  owned : Owned host.system host.files transit
  handled : host.stopped = false → Handled host.files held
  swept : swept = true → host.stopped = true ∧ Swept host.files

section Sound

variable {host host' : Host} {taken : Option Nat}
  {leases leases' blanks blanks' transit transit' held held' : List Nat} {swept : Bool} {r : Nat}
  {file file' : File}

theorem Sound.perm (h : Sound host taken leases blanks transit held swept)
    (hleases : leases'.Perm leases) (hblanks : ∀ q ∈ blanks', q ∈ blanks)
    (htransit : transit'.Perm transit) (hheld : host.stopped = false → held'.Perm held) :
    Sound host taken leases' blanks' transit' held' swept :=
  ⟨h.rows.perm hleases hblanks, h.idle, h.owned.perm htransit,
    fun hstopped => (h.handled hstopped).perm (hheld hstopped), h.swept⟩

/-- A row that no job holds any more retires. -/
theorem Sound.retire (h : Sound host taken leases blanks transit held swept)
    (hfile : host.files[r]? = some file) (hlive : file.live = true)
    (hdescriptor : file'.descriptor = file.descriptor) (hbusy : file'.busy = 0)
    (hzero : leases'.count r = 0) (hother : ∀ q, q ≠ r → leases'.count q = leases.count q)
    (hblanks : ∀ q ∈ blanks', q ∈ blanks ∧ q ≠ r)
    (hheld : host.stopped = false → held'.Nodup ∧ ∀ d ∈ held', d ∈ held ∧
      (file.descriptor = some d → file.closing = true)) :
    Sound (host.retire r file') taken leases' blanks' transit held' swept where
  rows := h.rows.set hfile (hbusy.trans hzero.symm) hother (fun _ => ⟨hbusy, rfl⟩)
    (fun hdead => by cases hdead) (fun q hq _ => (hblanks q hq).1)
    fun hr => absurd rfl (hblanks r hr).2
  idle := h.idle.retire hfile hlive rfl
  owned := by
    simp only [Host.retire, Host.setFile, hdescriptor]
    exact h.owned.retire hfile rfl
  handled hstopped := by
    obtain ⟨hnodup, hclosing⟩ := hheld hstopped
    refine (h.handled hstopped).set hfile hnodup (fun d hd => (hclosing d hd).1) ?_
    intro d hd _ hcarried hopen
    rw [(hclosing d hd).2 hcarried] at hopen
    cases hopen
  swept hswept := by
    obtain ⟨hstopped, hrows⟩ := h.swept hswept
    exact ⟨hstopped, hrows.set hfile fun hdead => by cases hdead⟩

/-- An empty row that is being opened is not the row of a descriptor. -/
theorem Rows.blank_ne {files : List File} (h : Rows files leases blanks)
    (hfile : files[r]? = some file) {d : Nat} (hd : file.descriptor = some d) {q : Nat}
    (hq : q ∈ blanks) : q ≠ r := by
  rintro rfl
  obtain ⟨-, empty, hempty, -, hnone, -⟩ := h.blank q hq
  rw [hfile] at hempty
  cases hempty
  rw [hd] at hnone
  cases hnone

/-- **A job is over.** -/
theorem Sound.jobFinished (h : Sound host taken leases blanks transit held swept)
    (hleases : leases.Perm (r :: leases')) (hblanks : ∀ q ∈ blanks', q ∈ blanks ∧ q ≠ r) :
    Sound (host.jobFinished (some r)) taken leases' blanks' transit held swept := by
  obtain ⟨file, hfile, hlive, hpositive⟩ :=
    h.rows.leased (hleases.mem_iff.mpr List.mem_cons_self)
  have hbusy := h.rows.busy r file hfile
  rw [hleases.count_eq, List.count_cons_self] at hbusy
  have hother : ∀ q, q ≠ r → leases'.count q = leases.count q := by
    intro q hne
    rw [hleases.count_eq, List.count_cons_of_ne (Ne.symm hne)]
  simp only [Host.jobFinished, hfile]
  split
  · rename_i hretire
    refine h.retire hfile hlive rfl hretire.1 (by omega) hother hblanks fun hstopped =>
      ⟨(h.handled hstopped).nodup, fun d hd => ⟨hd, fun hcarried => ?_⟩⟩
    rcases hretire.2 with hstop | hclosing | hnone
    · rw [hstopped] at hstop
      cases hstop
    · exact hclosing
    · rw [hcarried] at hnone
      cases hnone
  · rename_i hstays
    refine ⟨h.rows.set hfile ?_ hother (fun hdead => ?_) (fun _ hnone => ?_)
      (fun q hq _ => (hblanks q hq).1) (fun hr => absurd rfl (hblanks r hr).2),
      h.idle.set hfile rfl, h.owned.set hfile rfl, fun hstopped => ?_, fun hswept => ?_⟩
    · simp only
      omega
    · rw [hlive] at hdead
      cases hdead
    · exact Nat.pos_of_ne_zero fun hzero => hstays ⟨hzero, .inr (.inr hnone)⟩
    · exact (h.handled hstopped).set hfile (h.handled hstopped).nodup (fun d hd => hd)
        fun d hd hl hd' hc => ⟨hl, hd', hc⟩
    · obtain ⟨hstopped, hrows⟩ := h.swept hswept
      exact ⟨hstopped, hrows.set hfile fun _ =>
        Nat.pos_of_ne_zero fun hzero => hstays ⟨hzero, .inl hstopped⟩⟩

theorem find_spec {hand : Nat} (h : host.find hand = some r) :
    ∃ file, host.files[r]? = some file ∧ file.live = true ∧ file.descriptor = some hand := by
  have hcarries := List.find?_some h
  cases hfile : host.files[r]? with
  | none => rw [hfile] at hcarries; cases hcarries
  | some file =>
    rw [hfile] at hcarries
    simp only [Option.any_some, File.carries, Bool.and_eq_true, beq_iff_eq] at hcarries
    exact ⟨file, rfl, hcarries⟩

/-- A row that carries a descriptor is found. -/
theorem find_isSome {hand : Nat} (hfile : host.files[r]? = some file) (hlive : file.live = true)
    (hd : file.descriptor = some hand) : ∃ q, host.find hand = some q := by
  refine Option.ne_none_iff_exists'.mp fun hnone => ?_
  have hlt := (List.getElem?_eq_some_iff.mp hfile).1
  refine List.find?_eq_none.mp hnone r (List.mem_reverse.mpr (List.mem_range.mpr hlt)) ?_
  simp [hfile, File.carries, hlive, hd]

/-- **A job gets a lease.** -/
theorem Sound.lease (h : Sound host taken leases blanks transit held swept) {hand : Nat}
    {row : Option Nat} (hlease : host.lease hand = some (row, host')) :
    Sound host' taken (row.toList ++ leases) blanks transit held swept ∧
      host'.stopped = host.stopped := by
  unfold Host.lease at hlease
  split at hlease
  · cases hlease
    exact ⟨h, rfl⟩
  · rename_i q hfind
    obtain ⟨file, hfile, hlive, hcarried⟩ := find_spec hfind
    simp only [hfile] at hlease
    split at hlease
    · cases hlease
    · cases hlease
      have hbusy := h.rows.busy q file hfile
      refine ⟨⟨h.rows.set hfile ?_ (fun p hne => ?_) (fun hdead => ?_) (fun _ hnone => ?_)
        (fun p hp _ => hp) (fun hq => absurd rfl (h.rows.blank_ne hfile hcarried hq)),
        h.idle.set hfile rfl, h.owned.set hfile rfl, fun hstopped => ?_, fun hswept => ?_⟩, rfl⟩
      · rw [Option.toList_some, List.singleton_append, List.count_cons_self, hbusy]
      · rw [Option.toList_some, List.singleton_append, List.count_cons_of_ne (Ne.symm hne)]
      · rw [hlive] at hdead
        cases hdead
      · exact Nat.succ_pos _
      · exact (h.handled hstopped).set hfile (h.handled hstopped).nodup (fun d hd => hd)
          fun d hd hl hd' hc => ⟨hl, hd', hc⟩
      · obtain ⟨hstopped, hrows⟩ := h.swept hswept
        exact ⟨hstopped, hrows.set hfile fun _ => Nat.succ_pos _⟩

/-- **The program closes a handle.** -/
theorem Sound.close (h : Sound host taken leases blanks transit held swept) {hand : Nat}
    (hstopped : host.stopped = false) (hheld : held.Perm (hand :: held')) :
    Sound (host.close hand) taken leases blanks transit held' swept ∧
      (host.close hand).stopped = host.stopped := by
  have hhandled := h.handled hstopped
  obtain ⟨hnotin, hnodup⟩ := List.nodup_cons.mp (hheld.nodup_iff.mp hhandled.nodup)
  have hsub : ∀ d ∈ held', d ∈ held := fun d hd => hheld.mem_iff.mpr (List.mem_cons_of_mem _ hd)
  obtain ⟨q, old, hold, hlive, hdescriptor, -⟩ :=
    hhandled.row hand (hheld.mem_iff.mpr List.mem_cons_self)
  obtain ⟨r, hfind⟩ := find_isSome hold hlive hdescriptor
  obtain ⟨file, hfile, hlive, hcarried⟩ := find_spec hfind
  have hbusy := h.rows.busy r file hfile
  have hnone : ∀ q ∈ blanks, q ≠ r := fun q hq => h.rows.blank_ne hfile hcarried hq
  -- the other handles are those of other rows
  have hothers : ∀ d ∈ held', file.descriptor = some d → False := by
    intro d hd hsame
    rw [hcarried] at hsame
    cases hsame
    exact hnotin hd
  simp only [Host.close, hfind, hfile]
  split
  · rename_i hzero
    exact ⟨h.retire hfile hlive rfl hzero (by omega) (fun q _ => rfl)
      (fun q hq => ⟨hq, hnone q hq⟩) fun _ =>
        ⟨hnodup, fun d hd => ⟨hsub d hd, fun hsame => (hothers d hd hsame).elim⟩⟩, rfl⟩
  · rename_i hpositive
    refine ⟨⟨h.rows.set hfile hbusy (fun q _ => rfl) (fun hdead => ?_)
      (fun _ hempty => ?_) (fun q hq _ => hq) (fun hr => absurd rfl (hnone r hr)),
      h.idle.set hfile rfl, h.owned.set hfile rfl, fun _ => ?_, fun hswept => ?_⟩, rfl⟩
    · rw [hlive] at hdead
      cases hdead
    · exact Nat.pos_of_ne_zero hpositive
    · exact hhandled.set hfile hnodup hsub fun d hd _ hsame _ => (hothers d hd hsame).elim
    · rw [(h.swept hswept).1] at hstopped
      cases hstopped

/-- The row that was taken is opened. -/
theorem Sound.open (h : Sound host (some r) leases blanks transit held swept) :
    Sound (host.setFile r ⟨none, 1, true, false⟩) none (r :: leases) (r :: blanks) transit held
      swept := by
  obtain ⟨file, hfile, hdead⟩ := h.idle.taken r rfl
  have hzero := h.rows.busy r file hfile
  obtain ⟨hbusy, hnone⟩ := h.rows.dead r file hfile hdead
  have hcount : (r :: leases).count r = 1 := by
    rw [List.count_cons_self]
    omega
  refine ⟨h.rows.set hfile hcount.symm (fun q hne => List.count_cons_of_ne (Ne.symm hne))
    (fun hfalse => by cases hfalse) (fun _ _ => Nat.one_pos) (fun q hq hne => ?_)
    (fun _ => ⟨hcount, rfl, rfl, rfl⟩), h.idle.open hfile rfl, h.owned.set hfile hnone.symm,
    fun hstopped => ?_, fun hswept => ?_⟩
  · exact (List.mem_cons.mp hq).resolve_left hne
  · refine (h.handled hstopped).set hfile (h.handled hstopped).nodup (fun d hd => hd) ?_
    intro d _ hlive
    rw [hdead] at hlive
    cases hlive
  · obtain ⟨hstopped, hrows⟩ := h.swept hswept
    exact ⟨hstopped, hrows.set hfile fun _ => Nat.one_pos⟩

/-- **A descriptor gets into its row.** -/
theorem Sound.publish {made : Option Nat}
    (h : Sound host taken leases blanks (transit ++ made.toList) held swept)
    (hfile : host.files[r]? = some file) (hr : r ∈ blanks)
    (hblanks : ∀ q ∈ blanks', q ∈ blanks ∧ q ≠ r) :
    Sound (host.setFile r { file with descriptor := made }) taken leases blanks' transit
      (made.toList ++ held) swept := by
  obtain ⟨hcount, empty, hempty, hlive, hnone, hclosing⟩ := h.rows.blank r hr
  rw [hfile] at hempty
  cases hempty
  have hbusy := h.rows.busy r file hfile
  refine ⟨h.rows.set hfile hbusy (fun q _ => rfl) (fun hdead => ?_) (fun _ _ => ?_)
    (fun q hq _ => (hblanks q hq).1) (fun hr => absurd rfl (hblanks r hr).2),
    h.idle.set hfile rfl, h.owned.publish hfile hnone rfl, fun hstopped => ?_, fun hswept => ?_⟩
  · rw [hlive] at hdead
    cases hdead
  · exact h.rows.empty r file hfile hlive hnone
  · have hhandled := h.handled hstopped
    have hkept : Handled (host.files.set r { file with descriptor := made }) held :=
      hhandled.set hfile hhandled.nodup (fun d hd => hd) fun d _ _ hcarried _ => by
        rw [hnone] at hcarried
        cases hcarried
    cases made with
    | none => exact hkept
    | some d =>
      refine ⟨List.nodup_cons.mpr ⟨fun hd => ?_, hhandled.nodup⟩, fun e he => ?_⟩
      · -- a handle is in a row, and what is on its way is in none
        obtain ⟨q, old, hold, -, hcarried, -⟩ := hhandled.row d hd
        have hnodup := h.owned.owned.nodup_iff.mp h.owned.nodup
        exact List.disjoint_of_nodup_append hnodup
          (List.mem_filterMap.mpr ⟨old, List.mem_of_getElem? hold, hcarried⟩)
          (List.mem_append_right _ List.mem_cons_self)
      · rcases List.mem_cons.mp he with rfl | he
        · exact ⟨r, _, getElem?_set_of_some hfile _, hlive, rfl, hclosing⟩
        · exact hkept.row e he
  · obtain ⟨hstopped, hrows⟩ := h.swept hswept
    exact ⟨hstopped, hrows.set hfile fun _ => h.rows.empty r file hfile hlive hnone⟩

/-- The program takes an idle row, if there is one. -/
theorem Sound.pop (h : Sound host none leases blanks transit held swept) :
    Sound { host with idle := host.idle.tail } host.idle.head? leases blanks transit held swept :=
  ⟨h.rows, h.idle.pop, h.owned, h.handled, h.swept⟩

/-- The program makes a row. -/
theorem Sound.create (h : Sound host none leases blanks transit held swept) :
    Sound { host with files := host.files ++ [⟨none, 0, false, false⟩] }
      (some host.files.length) leases blanks transit held swept where
  rows := h.rows.append
  idle := h.idle.create rfl
  owned := h.owned.append rfl
  handled hstopped := by
    refine ⟨(h.handled hstopped).nodup, fun d hd => ?_⟩
    obtain ⟨r, file, hfile, hrow⟩ := (h.handled hstopped).row d hd
    refine ⟨r, file, ?_, hrow⟩
    rw [List.getElem?_append_left (List.getElem?_eq_some_iff.mp hfile).1, hfile]
  swept hswept := by
    obtain ⟨hstopped, hrows⟩ := h.swept hswept
    refine ⟨hstopped, fun r file hfile hlive => ?_⟩
    rcases List.mem_append.mp (List.mem_of_getElem? hfile) with hold | hnew
    · obtain ⟨q, hlt, hq⟩ := List.mem_iff_getElem.mp hold
      exact hrows q file (by rw [List.getElem?_eq_getElem hlt, hq]) hlive
    · rw [List.mem_singleton.mp hnew] at hlive
      cases hlive

/-- The operating system opens a descriptor. -/
theorem Sound.opens {d : Nat} (h : Sound host taken leases blanks transit held swept)
    (hfresh : d ∉ host.system.owned) :
    Sound { host with system := host.system.opens d } taken leases blanks (d :: transit) held
      swept :=
  ⟨h.rows, h.idle, h.owned.opens hfresh, h.handled, h.swept⟩

theorem Sound.stop (h : Sound host taken leases blanks transit held false) :
    Sound { host with stopped := true } taken leases blanks transit held' false :=
  ⟨h.rows, h.idle, h.owned, fun hstopped => (by cases hstopped), fun hswept => (by cases hswept)⟩

/-- A row is swept. -/
theorem Sound.sweep (h : Sound host taken leases blanks transit held false)
    (hstopped : host.stopped = true) (r : Nat) :
    Sound (host.sweep r) taken leases blanks transit held false ∧
      (host.sweep r).stopped = true := by
  unfold Host.sweep
  split
  · exact ⟨h, hstopped⟩
  · rename_i file hfile
    split
    · rename_i hidle
      have hbusy := h.rows.busy r file hfile
      refine ⟨h.retire hfile hidle.1 rfl hidle.2 (by omega) (fun q _ => rfl) (fun q hq => ?_)
        fun hruns => ?_, hstopped⟩
      · refine ⟨hq, ?_⟩
        rintro rfl
        have hone := (h.rows.blank q hq).1
        omega
      · rw [hstopped] at hruns
        cases hruns
    · exact ⟨h, hstopped⟩

/-- A row stays swept, and the row that is swept is. -/
theorem sweep_files (q : Nat) (hsweep : (host.sweep q).files[r]? = some file')
    (hlive : file'.live = true) :
    host.files[r]? = some file' ∧ (q = r → 0 < file'.busy) := by
  unfold Host.sweep at hsweep
  split at hsweep
  · rename_i hnone
    refine ⟨hsweep, ?_⟩
    rintro rfl
    rw [hsweep] at hnone
    cases hnone
  · rename_i file hfile
    split at hsweep
    · rcases file_of_set hfile hsweep with ⟨-, rfl⟩ | ⟨hne, hold⟩
      · cases hlive
      · exact ⟨hold, fun heq => absurd heq.symm hne⟩
    · rename_i hbusy
      refine ⟨hsweep, ?_⟩
      rintro rfl
      rw [hsweep] at hfile
      cases hfile
      exact Nat.pos_of_ne_zero fun hzero => hbusy ⟨hlive, hzero⟩

theorem sweep_all (rows : List Nat) (hfile : (rows.foldl Host.sweep host).files[r]? = some file')
    (hlive : file'.live = true) :
    host.files[r]? = some file' ∧ (r ∈ rows → 0 < file'.busy) := by
  induction rows generalizing host with
  | nil => exact ⟨hfile, fun h => by cases h⟩
  | cons q rows ih =>
    obtain ⟨hafter, hrest⟩ := ih hfile
    obtain ⟨hbefore, hq⟩ := sweep_files q hafter hlive
    refine ⟨hbefore, fun hr => ?_⟩
    rcases List.mem_cons.mp hr with heq | hr
    · exact hq heq.symm
    · exact hrest hr

/-- **The end of the host retires every row that no job holds.** -/
theorem Sound.shutdown (h : Sound host taken leases blanks transit held false)
    (hstopped : host.stopped = true) :
    Sound host.shutdown taken leases blanks transit held true ∧ host.shutdown.stopped = true := by
  have hfold : ∀ rows : List Nat, ∀ host : Host,
      Sound host taken leases blanks transit held false → host.stopped = true →
      Sound (rows.foldl Host.sweep host) taken leases blanks transit held false ∧
        (rows.foldl Host.sweep host).stopped = true := by
    intro rows
    induction rows with
    | nil => exact fun host h hstopped => ⟨h, hstopped⟩
    | cons q rows ih =>
      intro host h hstopped
      obtain ⟨hsound, hstill⟩ := h.sweep hstopped q
      exact ih _ hsound hstill
  obtain ⟨⟨hrows, hidle, howned, hhandled, -⟩, hstill⟩ := hfold host.rows host h hstopped
  refine ⟨⟨hrows, hidle, howned, hhandled, fun _ => ⟨hstill, fun r file hfile hlive => ?_⟩⟩,
    hstill⟩
  obtain ⟨hbefore, hbusy⟩ := sweep_all host.rows hfile hlive
  exact hbusy (List.mem_reverse.mpr (List.mem_range.mpr (List.getElem?_eq_some_iff.mp hbefore).1))

/-- No row lives when no job holds one after the end. -/
theorem Sound.over (h : Sound host taken [] blanks transit held true)
    (hfile : host.files[r]? = some file) : file.live = false := by
  by_contra hlive
  have hbusy := (h.swept rfl).2 r file hfile (by simpa using hlive)
  rw [h.rows.busy r file hfile, List.count_nil] at hbusy
  exact Nat.lt_irrefl _ hbusy

/-- **The last reference finds nothing to close.** -/
theorem Sound.release (h : Sound host taken [] blanks transit held true) :
    host.release = host := by
  have hnone : ∀ (rows : List Nat) (system : System),
      rows.foldl (Host.closeFile host.files) system = system := by
    intro rows
    induction rows with
    | nil => exact fun system => rfl
    | cons q rows ih =>
      intro system
      have hq : Host.closeFile host.files system q = system := by
        unfold Host.closeFile
        split
        · rfl
        · rename_i file hfile
          rw [h.over hfile]
      rw [List.foldl_cons, hq, ih]
  rw [Host.release, hnone]

/-- Nothing is open when nothing is on its way either. -/
theorem Sound.closed (h : Sound host taken [] blanks [] held true) :
    host.system.owned = [] ∧ host.system.closed.Perm host.system.opened := by
  have hrows : host.files.filterMap File.descriptor = [] := by
    rw [List.filterMap_eq_nil_iff]
    intro file hmem
    obtain ⟨r, hlt, hr⟩ := List.mem_iff_getElem.mp hmem
    have hfile : host.files[r]? = some file := by rw [List.getElem?_eq_getElem hlt, hr]
    exact (h.rows.dead r file hfile (h.over hfile)).2
  have howned : host.system.owned = [] := by
    have hperm := h.owned.owned
    rw [hrows] at hperm
    exact hperm.eq_nil
  have hhistory := h.owned.history
  rw [howned, List.append_nil] at hhistory
  exact ⟨howned, hhistory.symm⟩

/-- A job is over, whether it held a row or not. -/
theorem Sound.finish (h : Sound host taken leases blanks transit held swept) {row : Option Nat}
    (hleases : Trade leases row.toList [] leases') (hsub : ∀ q ∈ blanks', q ∈ blanks)
    (hle : ∀ q, blanks'.count q ≤ leases'.count q) :
    Sound (host.jobFinished row) taken leases' blanks' transit held swept := by
  cases row with
  | none =>
    have hperm : leases'.Perm leases := by
      simpa only [Trade, Option.toList_none, List.append_nil] using hleases
    exact h.perm hperm hsub (.refl _) fun _ => .refl _
  | some r =>
    have hperm : leases.Perm (r :: leases') := by
      simp only [Trade, Option.toList_some, List.append_nil] at hleases
      exact (hleases.symm.trans (List.perm_append_singleton _ _))
    refine h.jobFinished hperm fun q hq => ⟨hsub q hq, ?_⟩
    rintro rfl
    -- an open holds its row alone
    have hone := (h.rows.blank q (hsub q hq)).1
    have hmore := hle q
    have hpositive := List.count_pos_iff.mpr hq
    rw [hperm.count_eq, List.count_cons_self] at hone
    omega

end Sound

/-! ## 6. Every section keeps the table sound -/

namespace Vm

/-- The row that the thread of the program is about to open. -/
def taken : Vm → Option Nat
  | reserving row => row
  | _ => none

/-- The host was not stopped. -/
def runs : Vm → Bool
  | stopping | stopped | exited => false
  | _ => true

/-- Every row was looked at after the end. -/
def swept : Vm → Bool
  | stopped | exited => true
  | _ => false

/-- The references that the thread of the program holds. -/
def references : Vm → Nat
  | unstarted _ | refused => 2
  | exited => 0
  | _ => 1

end Vm

/-- **The invariant of the host.** -/
structure Kept (s : State) : Prop where
  sound : Sound s.host s.vm.taken s.leases s.blanks s.transit s.held s.vm.swept
  stopped : s.host.stopped = !s.vm.runs
  jobs : s.vm.swept = true → s.jobs = []
  references : s.references = s.workers.length + s.vm.references

section Parts

variable {s s' : State}

theorem sum_entries (s : State) (weight : Entry → Nat) : (s.entries.map weight).sum =
    ((s.jobs.map .waiting).map weight).sum + (s.vm.entries.map weight).sum +
      ((s.workers.flatMap Worker.entries).map weight).sum +
      ((s.completed.map .result).map weight).sum := by
  simp only [State.entries, List.map_append, List.sum_append]

theorem trade_worker {i : Nat} {worker : Worker} (h : s.workers[i]? = some worker)
    (worker' : Worker) :
    Trade s.entries worker.entries worker'.entries (s.setWorker i worker').entries := by
  refine .of_sums fun weight => ?_
  have hset := Library.sum_flatMap_set Worker.entries weight h worker'
  simp only [sum_entries, State.setWorker]
  omega

/-- Only places change. -/
theorem Sound.places {host : Host} {taken : Option Nat} {swept : Bool}
    (h : Sound host taken s.leases s.blanks s.transit s.held swept)
    (htrade : Trade s.entries [] [] s'.entries) (hhandles : s'.handles = s.handles) :
    Sound host taken s'.leases s'.blanks s'.transit s'.held swept := by
  have hperm : s'.entries.Perm s.entries := by
    simpa only [Trade, List.append_nil] using htrade
  refine h.perm (hperm.filterMap _) (fun q hq => ?_) (hperm.filterMap _) fun _ => ?_
  · exact (hperm.filterMap _).mem_iff.mp hq
  · rw [State.held, State.held, hhandles]
    exact (hperm.filterMap _).append_left _

theorem blanks_le (s : State) (q : Nat) : s.blanks.count q ≤ s.leases.count q :=
  count_blank_le q s.entries

/-- The lease of an entry comes back. -/
theorem Sound.giveBack {taken : Option Nat} {swept : Bool}
    (h : Sound s.host taken s.leases s.blanks s.transit s.held swept)
    (entry : Entry) (new : List Entry)
    (htrade : Trade s.entries [entry] new s'.entries)
    (hrow : new.filterMap Entry.row = []) (hblank : new.filterMap Entry.blank = [])
    (htransit : entry.transit = none) (htransit' : new.filterMap Entry.transit = [])
    (hmade : new.filterMap Entry.made = entry.made.toList) (hhandles : s'.handles = s.handles) :
    Sound (s.host.jobFinished entry.row) taken s'.leases s'.blanks s'.transit s'.held swept := by
  have hone : ∀ f : Entry → Option Nat, [entry].filterMap f = (f entry).toList := by
    intro f
    cases hf : f entry <;> simp [hf]
  have hleases := htrade.filterMap Entry.row
  have hblanks := htrade.filterMap Entry.blank
  have htransits := htrade.filterMap Entry.transit
  have hmades := htrade.filterMap Entry.made
  rw [hone, hrow] at hleases
  rw [hblank] at hblanks
  rw [hone, htransit, htransit'] at htransits
  rw [hone, hmade] at hmades
  refine (h.finish hleases (fun q hq => ?_) (blanks_le s')).perm (.refl _) (fun q hq => hq) ?_ ?_
  · exact (hblanks.mem hq).resolve_right (by simp)
  · simp only [Trade, Option.toList_none, List.append_nil] at htransits
    exact htransits
  · intro _
    rw [State.held, State.held, hhandles]
    exact ((List.perm_append_right_iff _).mp hmades).append_left _

end Parts

section Steps

variable {s s' : State}

theorem kept_default : Kept State.default where
  sound := by
    refine ⟨⟨?_, ?_, ?_, ?_, ?_⟩, ⟨.nil, ?_, ?_⟩, ⟨.refl _, .nil, .refl _, rfl⟩,
      fun _ => ⟨.nil, ?_⟩, fun h => by cases h⟩
    · exact fun r file h => by cases h
    · exact fun r h => by cases h
    · exact fun r file h => by cases h
    · exact fun r file h => by cases h
    · exact fun r h => by cases h
    · intro r
      constructor
      · exact fun h => by cases h
      · rintro ⟨⟨file, h, -⟩, -⟩
        cases h
    · exact fun r h => by cases h
    · exact fun r h => by cases h
  stopped := rfl
  jobs _ := rfl
  references := rfl

/-- While the program runs, no row has to be swept. -/
theorem kept_running (hruns : s.vm.runs = true) (hstopped : s.host.stopped = false)
    (hreferences : s.references = s.workers.length + s.vm.references)
    (hsound : Sound s.host s.vm.taken s.leases s.blanks s.transit s.held false) : Kept s := by
  have hswept : s.vm.swept = false := by
    cases hvm : s.vm <;> rw [hvm] at hruns <;> first | rfl | cases hruns
  refine ⟨?_, ?_, fun h => ?_, hreferences⟩
  · rw [hswept]
    exact hsound
  · rw [hstopped, hruns]
    rfl
  · rw [hswept] at h
    cases h

/-- The reference that goes away finds nothing to close. -/
theorem Kept.dropReference (h : Kept { s with references := s.references - 1 })
    (hlast : s.references - 1 = 0 → s.vm.swept = true) : Kept s.dropReference := by
  unfold State.dropReference
  split
  · rename_i hzero
    have hreferences := h.references
    have hworkers : s.workers = [] := List.length_eq_zero_iff.mp (by
      simp only at hreferences
      omega)
    have hsound := h.sound
    have hswept := hlast hzero
    have hjobs : s.jobs = [] := h.jobs hswept
    have hvm : s.vm.entries = [] := by
      cases hs : s.vm <;> rw [hs] at hswept <;> first | rfl | cases hswept
    have hleases : s.leases = [] := by
      simp only [State.leases, State.entries, hjobs, hvm, hworkers, List.map_nil, List.flatMap_nil,
        List.nil_append, List.filterMap_map]
      exact List.filterMap_eq_nil_iff.mpr fun _ _ => rfl
    have hempty : Sound s.host s.vm.taken [] s.blanks s.transit s.held true := by
      rw [← hleases, ← hswept]
      exact hsound
    rw [hempty.release]
    exact h
  · exact h

/-- The jobs of the queue, one of which leaves it. -/
theorem trade_dequeue {job : Job} {jobs : List Job} (hjobs : s.jobs = job :: jobs)
    (hsame : s'.jobs = jobs) (hvm : s'.vm.entries = s.vm.entries)
    (hworkers : s'.workers = s.workers) (hcompleted : s'.completed = s.completed) :
    Trade s.entries [.waiting job] [] s'.entries := by
  refine .of_sums fun weight => ?_
  simp only [sum_entries, hjobs, hsame, hvm, hworkers, hcompleted, List.map_cons, List.map_nil,
    List.sum_cons, List.sum_nil]
  omega

theorem trade_enqueue {job : Job} (hsame : s'.jobs = s.jobs ++ [job])
    (hvm : s.vm.entries = []) (hvm' : s'.vm.entries = []) (hworkers : s'.workers = s.workers)
    (hcompleted : s'.completed = s.completed) :
    Trade s.entries [] [.waiting job] s'.entries := by
  refine .of_sums fun weight => ?_
  simp only [sum_entries, hsame, hvm, hvm', hworkers, hcompleted, List.map_cons, List.map_nil,
    List.sum_cons, List.sum_nil, List.map_append, List.sum_append]
  omega

/-- Only the thread of the program goes on. -/
theorem trade_vm (hjobs : s'.jobs = s.jobs) (hvm : s'.vm.entries = s.vm.entries)
    (hworkers : s'.workers = s.workers) (hcompleted : s'.completed = s.completed) :
    Trade s.entries [] [] s'.entries := by
  refine .of_sums fun weight => ?_
  simp only [sum_entries, hjobs, hvm, hworkers, hcompleted]

theorem perm_of_trade {before after : List Entry} {f : Entry → Option Nat} {entry : Entry}
    (h : Trade before [] [entry] after) :
    (after.filterMap f).Perm ((f entry).toList ++ before.filterMap f) := by
  have hpart := h.filterMap f
  simp only [Trade, List.filterMap_nil, List.append_nil] at hpart
  refine hpart.trans ?_
  cases hf : f entry <;> simp [hf]

/-- An entry changes its stage. -/
theorem perm_of_stage {before after : List Entry} {f : Entry → Option Nat} {entry entry' : Entry}
    (h : Trade before [entry] [entry'] after) (hsame : f entry = f entry') :
    (after.filterMap f).Perm (before.filterMap f) := by
  have hpart := h.filterMap f
  have hone : [entry].filterMap f = [entry'].filterMap f := by
    simp only [List.filterMap_cons, hsame]
  rw [hone] at hpart
  exact (List.perm_append_right_iff _).mp hpart

/-- A job enters the queue. -/
theorem Sound.enqueue {host : Host} {taken : Option Nat} {swept : Bool} (s : State) (job : Job)
    (h : Sound host taken (job.row.toList ++ s.leases)
      ((Entry.waiting job).blank.toList ++ s.blanks) s.transit s.held swept)
    (hsame : s'.jobs = s.jobs ++ [job]) (hvm : s.vm.entries = []) (hvm' : s'.vm.entries = [])
    (hworkers : s'.workers = s.workers) (hcompleted : s'.completed = s.completed)
    (hhandles : s'.handles = s.handles) :
    Sound host taken s'.leases s'.blanks s'.transit s'.held swept := by
  have htrade := trade_enqueue hsame hvm hvm' hworkers hcompleted
  refine h.perm (perm_of_trade htrade) (fun q hq => (perm_of_trade htrade).mem_iff.mp hq)
    (perm_of_trade htrade) fun _ => ?_
  rw [State.held, State.held, hhandles]
  exact (perm_of_trade htrade).append_left _

/-- A worker goes on, and its job keeps what it holds. -/
theorem Sound.stage {host : Host} {taken : Option Nat} {swept : Bool} {entry entry' : Entry}
    (h : Sound host taken s.leases s.blanks s.transit s.held swept)
    (htrade : Trade s.entries [entry] [entry'] s'.entries) (hhandles : s'.handles = s.handles)
    (hrow : entry.row = entry'.row) (hblank : entry'.blank = none ∨ entry'.blank = entry.blank)
    (htransit : entry.transit = entry'.transit) (hmade : entry.made = entry'.made) :
    Sound host taken s'.leases s'.blanks s'.transit s'.held swept := by
  refine h.perm (perm_of_stage htrade hrow) (fun q hq => ?_) (perm_of_stage htrade htransit)
    fun _ => ?_
  · rcases (htrade.filterMap Entry.blank).mem hq with hold | hnew
    · exact hold
    · rcases hblank with hnone | hsame
      · rw [List.filterMap_cons_none hnone] at hnew
        cases hnew
      · exact (perm_of_stage htrade hsame.symm).mem_iff.mp hq
  · rw [State.held, State.held, hhandles]
    exact (perm_of_stage htrade hmade).append_left _

theorem references_set {i : Nat} {worker : Worker}
    (h : s.references = s.workers.length + s.vm.references) :
    s.references = (s.workers.set i worker).length + s.vm.references := by
  rw [List.length_set]
  exact h

theorem jobFinished_stopped (host : Host) (row : Option Nat) :
    (host.jobFinished row).stopped = host.stopped := by
  unfold Host.jobFinished
  split
  · rfl
  · split
    · rfl
    · simp only
      split <;> rfl

/-- The program is told what was opened. -/
theorem Sound.take {host : Host} {taken : Option Nat} {swept : Bool}
    (h : Sound host taken s.leases s.blanks s.transit s.held swept) (hjobs : s'.jobs = s.jobs)
    (hvm : s.vm.entries = []) (hvm' : s'.vm.entries = []) (hworkers : s'.workers = s.workers)
    (hcompleted : s'.completed = [])
    (hhandles : s'.handles = s.handles ++ s.completed.reduceOption) :
    Sound host taken s'.leases s'.blanks s'.transit s'.held swept := by
  have hentries : s.entries = s'.entries ++ s.completed.map .result := by
    simp only [State.entries, hjobs, hvm, hvm', hworkers, hcompleted, List.map_nil, List.append_nil]
  have hnone : ∀ f : Entry → Option Nat, (∀ made, f (.result made) = none) →
      s.entries.filterMap f = s'.entries.filterMap f := by
    intro f hf
    rw [hentries, List.filterMap_append, List.filterMap_map]
    simp [hf]
  have hmade : s.entries.filterMap Entry.made =
      s'.entries.filterMap Entry.made ++ s.completed.reduceOption := by
    rw [hentries, List.filterMap_append, List.filterMap_map]
    rfl
  rw [State.leases, hnone _ fun _ => rfl, State.blanks, hnone _ fun _ => rfl, State.transit,
    hnone _ fun _ => rfl, State.held, hmade] at h
  refine h.perm (.refl _) (fun q hq => hq) (.refl _) fun _ => ?_
  rw [State.held, hhandles, List.append_assoc]
  exact List.perm_append_comm.append_left _

theorem perm_of_gain {before after : List Entry} {f : Entry → Option Nat} {entry entry' : Entry}
    (h : Trade before [entry] [entry'] after) (hnone : f entry = none) :
    (after.filterMap f).Perm ((f entry').toList ++ before.filterMap f) := by
  have hpart := h.filterMap f
  rw [List.filterMap_cons_none hnone, List.filterMap_nil] at hpart
  simp only [Trade, List.append_nil] at hpart
  refine hpart.trans ?_
  cases hf : f entry' <;> simp [hf]

theorem perm_of_loss {before after : List Entry} {f : Entry → Option Nat} {entry : Entry}
    {new : List Entry} (h : Trade before [entry] new after) (hnone : new.filterMap f = []) :
    (before.filterMap f).Perm (after.filterMap f ++ (f entry).toList) := by
  have hpart := h.filterMap f
  rw [hnone] at hpart
  simp only [Trade, List.append_nil] at hpart
  refine hpart.symm.trans ?_
  cases hf : f entry <;> simp [hf]

/-- The program is not told of a job. -/
theorem Sound.forget {host : Host} {taken : Option Nat} {swept : Bool} {made : Option Nat}
    (h : Sound host taken s.leases s.blanks s.transit s.held swept) (hstopped : host.stopped = true)
    (htrade : Trade s.entries [.result made] [] s'.entries) :
    Sound host taken s'.leases s'.blanks s'.transit s'.held swept := by
  have hperm : ∀ f : Entry → Option Nat, f (.result made) = none →
      (s'.entries.filterMap f).Perm (s.entries.filterMap f) := by
    intro f hf
    have hloss := perm_of_loss (f := f) htrade rfl
    rw [hf, Option.toList_none, List.append_nil] at hloss
    exact hloss.symm
  refine h.perm (hperm _ rfl) (fun q hq => (hperm _ rfl).mem_iff.mp hq) (hperm _ rfl)
    fun hruns => ?_
  rw [hstopped] at hruns
  cases hruns

/-- A descriptor that was opened gets into its row. -/
theorem Sound.published {host : Host} {taken : Option Nat} {swept : Bool} {call : Call} {r : Nat}
    {made : Option Nat} {file : File}
    (h : Sound host taken s.leases s.blanks s.transit s.held swept)
    (htrade : Trade s.entries [.opened ⟨call, some r⟩ made] [.called ⟨call, some r⟩ made]
      s'.entries)
    (hfile : host.files[r]? = some file) (hhandles : s'.handles = s.handles) :
    Sound (host.setFile r { file with descriptor := made }) taken s'.leases s'.blanks s'.transit
      s'.held swept := by
  have hblanks : s.blanks.Perm (s'.blanks ++ [r]) := perm_of_loss htrade rfl
  have htransit : s.transit.Perm (s'.transit ++ made.toList) := perm_of_loss htrade rfl
  have hmades : (s'.entries.filterMap Entry.made).Perm
      (made.toList ++ s.entries.filterMap Entry.made) := perm_of_gain htrade rfl
  have hr : r ∈ s.blanks := hblanks.mem_iff.mpr (List.mem_append_right _ List.mem_cons_self)
  have honly : ∀ q ∈ s'.blanks, q ∈ s.blanks ∧ q ≠ r := by
    intro q hq
    refine ⟨hblanks.mem_iff.mpr (List.mem_append_left _ hq), ?_⟩
    rintro rfl
    have hone := (h.rows.blank q hr).1
    have hle := blanks_le s q
    have hpositive := List.count_pos_iff.mpr hq
    rw [hblanks.count_eq, List.count_append, List.count_singleton_self] at hle
    omega
  have hready := h.perm (.refl _) (fun q hq => hq) htransit.symm fun _ => .refl _
  refine (hready.publish hfile hr honly).perm (perm_of_stage htrade rfl) (fun q hq => hq) (.refl _)
    fun _ => ?_
  rw [State.held, State.held, hhandles]
  refine (hmades.append_left _).trans ?_
  rw [← List.append_assoc, ← List.append_assoc]
  exact List.perm_append_comm.append_right _

/-! ### What a step does to the jobs -/

/-- A job gets a thread. -/
theorem trade_start {job : Job} {jobs : List Job} (hjobs : s.jobs = job :: jobs)
    (active references : Nat) :
    Trade s.entries [] [] (State.entries { s with
      jobs, workers := s.workers ++ [.running job], active, references }) := by
  refine .of_sums fun weight => ?_
  simp only [sum_entries, hjobs, List.flatMap_append, List.map_append, List.sum_append,
    List.map_cons, List.map_nil, List.sum_cons, List.sum_nil, List.flatMap_cons,
    List.flatMap_nil, List.append_nil, Worker.entries]
  omega

/-- A job that gets no thread stays with the program. -/
theorem trade_cannotStart {job : Job} {jobs : List Job} (hvm : s.vm.entries = [])
    (hjobs : s.jobs = job :: jobs) (active references : Nat) :
    Trade s.entries [] []
      (State.entries { s with vm := .unstarted job, jobs, active, references }) := by
  refine .of_sums fun weight => ?_
  simp only [sum_entries, hjobs, hvm]
  simp only [Vm.entries, List.map_cons, List.map_nil, List.sum_cons, List.sum_nil]
  omega

theorem trade_refused {job : Job} (hvm : s.vm = .unstarted job) (host : Host) :
    Trade s.entries [.waiting job] [] (State.entries { s with vm := .refused, host }) := by
  refine .of_sums fun weight => ?_
  simp only [sum_entries, hvm, Vm.entries, List.map_cons, List.map_nil, List.sum_cons,
    List.sum_nil]
  omega

/-- The result of a job goes to the program. -/
theorem trade_complete {i : Nat} {made : Option Nat} (h : s.workers[i]? = some (.finished made))
    (active : Nat) :
    Trade s.entries [] [] (State.entries { s.setWorker i .leaving with
      active, completed := s.completed ++ [made] }) := by
  have hset := fun weight : Entry → Nat =>
    Library.sum_flatMap_set Worker.entries weight h .leaving
  refine .of_sums fun weight => ?_
  have hsum := hset weight
  simp only [sum_entries, State.setWorker, Worker.entries, List.map_cons, List.map_nil,
    List.sum_cons, List.sum_nil, List.map_append, List.sum_append] at hsum ⊢
  omega

/-- Nobody is told of the result any more. -/
theorem trade_forget {i : Nat} {made : Option Nat} (h : s.workers[i]? = some (.finished made))
    (active : Nat) :
    Trade s.entries [.result made] [] (State.entries { s.setWorker i .leaving with active }) := by
  have hset := fun weight : Entry → Nat =>
    Library.sum_flatMap_set Worker.entries weight h .leaving
  refine .of_sums fun weight => ?_
  have hsum := hset weight
  simp only [sum_entries, State.setWorker, Worker.entries, List.map_cons, List.map_nil,
    List.sum_cons, List.sum_nil] at hsum ⊢
  omega

theorem trade_leave {i : Nat} (h : s.workers[i]? = some .leaving) (references : Nat) :
    Trade s.entries [] []
      (State.entries { s with workers := s.workers.eraseIdx i, references }) := by
  refine .of_sums fun weight => ?_
  have hsum := Library.sum_flatMap_eraseIdx Worker.entries weight h
  simp only [sum_entries, Worker.entries, List.map_nil, List.sum_nil] at hsum ⊢
  omega

/-! ### The steps that change more than places -/

/-- The program closes one of its handles. -/
theorem Kept.close {hand : Nat} (h : Kept s) (hvm : s.vm = .ready) (hhand : hand ∈ s.handles) :
    Kept { s with host := s.host.close hand, handles := s.handles.erase hand } := by
  obtain ⟨hsound, hstopped, hjobs, hreferences⟩ := h
  have hruns : s.host.stopped = false := by
    rw [hstopped, hvm]
    rfl
  have hheld : s.held.Perm (hand :: (s.handles.erase hand ++ s.entries.filterMap Entry.made)) :=
    (List.perm_cons_erase hhand).append_right _
  obtain ⟨hclosed, hsame⟩ := hsound.close hruns hheld
  exact ⟨hclosed, hsame.trans hstopped, hjobs, hreferences⟩

/-- `open` returns a descriptor, which is not in its row yet. -/
theorem Kept.callOpen {i descriptor : Nat} {row : Option Nat} (h : Kept s)
    (hworker : s.workers[i]? = some (.running ⟨.open, row⟩))
    (hfresh : descriptor ∉ s.host.system.owned) :
    Kept { s.setWorker i (.opened ⟨.open, row⟩ (some descriptor)) with
      host := { s.host with system := s.host.system.opens descriptor } } := by
  obtain ⟨hsound, hstopped, hjobs, hreferences⟩ := h
  have htrade := trade_worker hworker (.opened ⟨.open, row⟩ (some descriptor))
  refine ⟨?_, hstopped, hjobs, references_set hreferences⟩
  refine (hsound.opens hfresh).perm (perm_of_stage htrade rfl) (fun q hq => ?_) ?_ fun _ => ?_
  · exact (perm_of_stage htrade rfl).mem_iff.mp hq
  · exact perm_of_gain htrade rfl
  · exact (perm_of_stage htrade rfl).append_left _

theorem Kept.complete {i : Nat} {made : Option Nat} (h : Kept s)
    (hworker : s.workers[i]? = some (.finished made)) :
    Kept { s.setWorker i .leaving with
      active := s.active - 1
      completed := if s.host.stopped then s.completed else s.completed ++ [made] } := by
  obtain ⟨hsound, hstopped, hjobs, hreferences⟩ := h
  refine ⟨?_, hstopped, hjobs, references_set hreferences⟩
  by_cases hstop : s.host.stopped = true
  · simp only [if_pos hstop]
    exact hsound.forget hstop (trade_forget hworker _)
  · simp only [if_neg hstop]
    exact hsound.places (trade_complete hworker _) rfl

theorem Kept.leave {i : Nat} (h : Kept s) (hworker : s.workers[i]? = some .leaving) :
    Kept { s with workers := s.workers.eraseIdx i }.dropReference := by
  obtain ⟨hsound, hstopped, hjobs, hreferences⟩ := h
  obtain ⟨hlt, -⟩ := List.getElem?_eq_some_iff.mp hworker
  refine Kept.dropReference ⟨hsound.places (trade_leave hworker _) rfl, hstopped, hjobs, ?_⟩
    fun hlast => ?_
  · simp only [List.length_eraseIdx_of_lt hlt]
    omega
  · simp only at hlast
    have hvm : s.vm.references = 0 := by omega
    cases hs : s.vm <;> rw [hs] at hvm <;> first | rfl | cases hvm

/-- The host is told to stop. -/
theorem Kept.stop (h : Kept s) (hvm : s.vm = .ready ∨ s.vm = .failed) :
    Kept { s with vm := .stopping, host := { s.host with stopped := true } } := by
  obtain ⟨hsound, hstopped, hjobs, hreferences⟩ := h
  have hsound' : Sound s.host none s.leases s.blanks s.transit s.held false := by
    rcases hvm with hvm | hvm <;> rw [hvm] at hsound <;> exact hsound
  have hentries : s.vm.entries = [] := by
    rcases hvm with hvm | hvm <;> rw [hvm] <;> rfl
  have hone : s.vm.references = 1 := by
    rcases hvm with hvm | hvm <;> rw [hvm] <;> rfl
  refine ⟨?_, rfl, fun hswept => (by cases hswept), ?_⟩
  · exact Sound.places hsound'.stop (trade_vm rfl hentries.symm rfl rfl) rfl
  · rw [hone] at hreferences
    exact hreferences

/-- **Every section keeps the invariant.** -/
theorem Kept.step (h : Kept s) (hstep : Step s s') : Kept s' := by
  obtain ⟨hsound, hstopped, hjobs, hreferences⟩ := id h
  cases hstep with
  | reserve hvm =>
    rw [hvm] at hsound hstopped hreferences
    refine kept_running rfl hstopped hreferences ?_
    exact hsound.pop.places (trade_vm rfl (by rw [hvm]; rfl) rfl rfl) rfl
  | create hvm hroom =>
    rw [hvm] at hsound hstopped hreferences
    refine kept_running rfl hstopped hreferences ?_
    exact hsound.create.places (trade_vm rfl (by rw [hvm]; rfl) rfl rfl) rfl
  | cannotCreate hvm | started hvm hnone | fail hvm =>
    rw [hvm] at hsound hstopped hreferences
    refine kept_running rfl hstopped hreferences ?_
    exact hsound.places (trade_vm rfl (by rw [hvm]; rfl) rfl rfl) rfl
  | «open» hvm =>
    rw [hvm] at hsound hstopped hreferences
    refine kept_running rfl hstopped hreferences ?_
    exact Sound.enqueue s ⟨.open, some _⟩ hsound.open rfl (by rw [hvm]; rfl) rfl rfl rfl rfl
  | @use hand row host hvm hhand hlease =>
    rw [hvm] at hsound hstopped hreferences
    obtain ⟨hsound', hsame⟩ := hsound.lease hlease
    refine kept_running rfl (hsame.trans hstopped) hreferences ?_
    exact Sound.enqueue s ⟨.use hand, row⟩ hsound' rfl (by rw [hvm]; rfl) rfl rfl rfl rfl
  | refuse hvm hhand hlease => exact h
  | plain hvm =>
    rw [hvm] at hsound hstopped hreferences
    refine kept_running rfl hstopped hreferences ?_
    exact Sound.enqueue s ⟨.other, none⟩ hsound rfl (by rw [hvm]; rfl) rfl rfl rfl rfl
  | close hvm hhand => exact h.close hvm hhand
  | take hvm =>
    rw [hvm] at hsound hstopped hreferences
    refine kept_running rfl hstopped hreferences ?_
    exact hsound.take rfl (by rw [hvm]; rfl) rfl rfl rfl rfl
  | start hvm hqueue hactive =>
    rw [hvm] at hsound hstopped hreferences
    refine kept_running (by rw [hvm]; rfl) hstopped ?_ ?_
    · simp only [List.length_append, List.length_singleton, hvm]
      omega
    · have htrade := trade_start hqueue (s.active + 1) (s.references + 1)
      rw [hvm] at htrade ⊢
      exact hsound.places htrade rfl
  | cannotStart hvm hqueue hactive =>
    have hentries : s.vm.entries = [] := by rw [hvm]; rfl
    rw [hvm] at hsound hstopped hreferences
    refine kept_running rfl hstopped ?_ ?_
    · simp only [Vm.references] at hreferences ⊢
      omega
    · exact hsound.places (trade_cannotStart hentries hqueue _ _) rfl
  | @giveBack job hvm =>
    rw [hvm] at hsound hstopped hreferences
    refine kept_running rfl ((jobFinished_stopped _ _).trans hstopped) hreferences ?_
    exact hsound.giveBack (.waiting job) [] (trade_refused hvm _) rfl rfl rfl rfl rfl rfl
  | giveUp hvm =>
    rw [hvm] at hsound hstopped hreferences
    refine kept_running rfl hstopped ?_ ?_
    · simp only [Vm.references] at hreferences ⊢
      omega
    · exact hsound.places (trade_vm rfl (by rw [hvm]; rfl) rfl rfl) rfl
  | callOpen hworker hfresh => exact h.callOpen hworker hfresh
  | @cannotOpen i row hworker =>
    have htrade := trade_worker hworker (.opened ⟨.open, row⟩ none)
    exact ⟨Sound.stage hsound htrade rfl rfl (.inr rfl) rfl rfl, hstopped, hjobs,
      references_set hreferences⟩
  | @publish i r call made file hworker hfile =>
    have htrade := trade_worker hworker (.called ⟨call, some r⟩ made)
    exact ⟨hsound.published htrade hfile rfl, hstopped, hjobs, references_set hreferences⟩
  | @call i job hworker =>
    have htrade := trade_worker hworker (.called job none)
    exact ⟨Sound.stage hsound htrade rfl rfl (.inl rfl) rfl rfl, hstopped, hjobs,
      references_set hreferences⟩
  | @finish i job made hworker =>
    have htrade := trade_worker hworker (.finished made)
    refine ⟨?_, (jobFinished_stopped _ _).trans hstopped, hjobs, references_set hreferences⟩
    refine hsound.giveBack (.called job made) [.result made] htrade rfl rfl rfl rfl ?_ rfl
    cases made <;> rfl
  | complete hworker => exact h.complete hworker
  | leave hworker => exact h.leave hworker
  | stop hvm => exact h.stop hvm
  | @cancel job jobs hvm hqueue =>
    refine ⟨?_, (jobFinished_stopped _ _).trans hstopped, fun hswept => ?_, hreferences⟩
    · exact hsound.giveBack (.waiting job) [] (trade_dequeue hqueue rfl rfl rfl rfl) rfl rfl rfl rfl
        rfl rfl
    · simp only [hvm] at hswept
      cases hswept
  | shutdown hvm hqueue =>
    rw [hvm] at hsound hstopped hreferences
    obtain ⟨hswept, hstill⟩ := hsound.shutdown hstopped
    refine ⟨?_, hstill, fun _ => hqueue, hreferences⟩
    exact hswept.places (trade_vm rfl (by rw [hvm]; rfl) rfl rfl) rfl
  | release hvm =>
    have hqueue := hjobs (by rw [hvm]; rfl)
    rw [hvm] at hsound hstopped hreferences
    refine Kept.dropReference ⟨?_, hstopped, fun _ => hqueue, ?_⟩ fun _ => rfl
    · exact hsound.places (trade_vm rfl (by rw [hvm]; rfl) rfl rfl) rfl
    · simp only [Vm.references] at hreferences ⊢
      omega

theorem Reached.kept (h : Reached s) : Kept s := by
  induction h with
  | default => exact kept_default
  | step _ h ih => exact ih.step h

end Steps

/-! ## 7. A row that lives keeps its descriptor -/

/-- No row that lives loses its descriptor. -/
def Stays (host host' : Host) : Prop :=
  ∀ (r : Nat) (file file' : File) (d : Nat), host.files[r]? = some file →
    file.descriptor = some d → host'.files[r]? = some file' → file'.live = true →
    file'.descriptor = some d

section Stays

variable {host host' : Host} {r : Nat} {file file' : File}

theorem Stays.same (h : host'.files = host.files) : Stays host host' := by
  intro r file file' d hfile hd hfile' _
  rw [h, hfile] at hfile'
  cases hfile'
  exact hd

theorem Stays.set (hfile : host.files[r]? = some file)
    (h : host'.files = host.files.set r file')
    (hkeep : file'.live = true → file.descriptor ≠ none → file'.descriptor = file.descriptor) :
    Stays host host' := by
  intro q old new d hold hd hnew hlive
  rw [h] at hnew
  rcases file_of_set hfile hnew with ⟨rfl, rfl⟩ | ⟨-, hsame⟩
  · rw [hfile] at hold
    cases hold
    rw [hkeep hlive (by rw [hd]; exact Option.some_ne_none d), hd]
  · rw [hold] at hsame
    cases hsame
    exact hd

theorem stays_jobFinished (host : Host) (row : Option Nat) :
    Stays host (host.jobFinished row) := by
  unfold Host.jobFinished
  split
  · exact .same rfl
  · split
    · exact .same rfl
    · rename_i hfile
      simp only
      split
      · exact .set hfile rfl fun hlive => by cases hlive
      · exact .set hfile rfl fun _ _ => rfl

theorem stays_close (host : Host) (hand : Nat) : Stays host (host.close hand) := by
  unfold Host.close
  split
  · split <;> exact .same rfl
  · split
    · exact .same rfl
    · rename_i hfile
      simp only
      split
      · exact .set hfile rfl fun hlive => by cases hlive
      · exact .set hfile rfl fun _ _ => rfl

theorem stays_lease {hand : Nat} {row : Option Nat} (h : host.lease hand = some (row, host')) :
    Stays host host' := by
  unfold Host.lease at h
  split at h
  · cases h
    exact .same rfl
  · split at h
    · cases h
      exact .same rfl
    · rename_i hfile
      split at h
      · cases h
      · cases h
        exact .set hfile rfl fun _ _ => rfl

theorem stays_dropReference (s : State) : Stays s.host s.dropReference.host := by
  unfold State.dropReference
  split <;> exact .same rfl

/-- **Every section leaves the descriptors of the living rows alone.** -/
theorem Kept.stays {s s' : State} (h : Kept s) (hstep : Step s s') : Stays s.host s'.host := by
  cases hstep with
  | reserve | cannotCreate | refuse | plain | take | start | cannotStart | started | giveUp | fail
  | callOpen | cannotOpen | call | complete | stop => exact .same rfl
  | create hvm hroom =>
    intro r file file' d hfile hd hfile' _
    rw [List.getElem?_append_left (List.getElem?_eq_some_iff.mp hfile).1, hfile] at hfile'
    cases hfile'
    exact hd
  | @«open» r hvm =>
    have hsound := h.sound
    rw [hvm] at hsound
    obtain ⟨file, hfile, hdead⟩ := hsound.idle.taken r rfl
    exact .set hfile rfl fun _ hsome => absurd (hsound.rows.dead r file hfile hdead).2 hsome
  | use hvm hhand hlease => exact stays_lease hlease
  | close => exact stays_close _ _
  | giveBack | finish | cancel => exact stays_jobFinished _ _
  | @publish i r call made file hworker hfile =>
    have hblanks : s.blanks.Perm (_ ++ [r]) :=
      perm_of_loss (trade_worker hworker (.called ⟨call, some r⟩ made)) rfl
    obtain ⟨-, empty, hempty, -, hnone, -⟩ := h.sound.rows.blank r
      (hblanks.mem_iff.mpr (List.mem_append_right _ List.mem_cons_self))
    rw [hfile] at hempty
    cases hempty
    exact .set hfile rfl fun _ hsome => absurd hnone hsome
  | leave | release => exact stays_dropReference _
  | shutdown hvm hqueue =>
    intro r file file' d hfile hd hfile' hlive
    have hsame := (sweep_all _ hfile' hlive).1
    rw [hfile] at hsame
    cases hsame
    exact hd

end Stays

/-! ## 8. The file table -/

/-- The job that a worker is at. -/
def Worker.job : Worker → Option Job
  | running job | opened job _ | called job _ => some job
  | finished _ | leaving => none

section Table

variable {s : State}

/-- Nobody holds a row when the host is shut down and no worker is at a job. -/
theorem Kept.nothing_held (h : Kept s) (hswept : s.vm.swept = true)
    (hworkers : ∀ worker ∈ s.workers, worker.job = none) : s.leases = [] ∧ s.transit = [] := by
  have hvm : s.vm.entries = [] := by
    cases hs : s.vm <;> rw [hs] at hswept <;> first | rfl | cases hswept
  have hresult : ∀ entry ∈ s.entries, ∃ made, entry = .result made := by
    intro entry hentry
    simp only [State.entries, h.jobs hswept, hvm, List.map_nil, List.nil_append, List.mem_append,
      List.mem_flatMap, List.mem_map] at hentry
    rcases hentry with ⟨worker, hworker, hentry⟩ | ⟨made, -, rfl⟩
    · have hjob := hworkers worker hworker
      cases worker with
      | running job | opened job made | called job made => cases hjob
      | finished made => exact ⟨made, List.mem_singleton.mp hentry⟩
      | leaving => cases hentry
    · exact ⟨made, rfl⟩
  constructor <;> refine List.filterMap_eq_nil_iff.mpr fun entry hentry => ?_ <;>
    obtain ⟨made, rfl⟩ := hresult entry hentry <;> rfl

/-- The program takes its first row. -/
def firstRow : State :=
  ⟨⟨[⟨none, 0, false, false⟩], [], false, ⟨[], [], [], []⟩⟩, .reserving (some 0), [], [], [], [],
    0, 1⟩

/-- A row that the program is about to open does not live and is not idle. -/
theorem first_row_not_idle : ¬∀ s : State, Reached s → ∀ (r : Nat) (file : File),
    s.host.files[r]? = some file → (s.host.idle.count r = 1 ↔ file.live = false) := by
  intro h
  have hreached : Reached firstRow :=
    (Reached.default.step (.reserve rfl)).step (.create rfl (by decide))
  exact absurd ((h firstRow hreached 0 ⟨none, 0, false, false⟩ rfl).mpr rfl) (by decide)

/-- **The file table of the C runtime**, in every interleaving of its sections.

A row that a queued or running job holds lives, and its descriptor is open; no section closes it.
The busy count is the number of these jobs.  What was opened through the table is closed or still
open, nothing else is closed, and nothing is open when the host is shut down and no worker is at a
job.  No two living rows carry the same descriptor.  A row is idle, once, if and only if it does not
live and is not the one that the program is about to open. -/
theorem file_table (h : Reached s) :
    (∀ r ∈ s.leases, ∃ file, s.host.files[r]? = some file ∧ file.live = true ∧ 0 < file.busy ∧
      ∀ d, file.descriptor = some d → d ∈ s.host.system.owned) ∧
    (∀ s', Step s s' → ∀ r ∈ s'.leases, ∀ file d, s.host.files[r]? = some file →
      file.descriptor = some d → d ∈ s'.host.system.owned ∧
        ∃ file', s'.host.files[r]? = some file' ∧ file'.descriptor = some d) ∧
    (∀ (r : Nat) (file : File), s.host.files[r]? = some file → file.busy = s.leases.count r) ∧
    (s.host.system.opened.Perm (s.host.system.closed ++ s.host.system.owned) ∧
      s.host.system.owned.Nodup ∧ s.host.system.stray = []) ∧
    (s.vm.swept = true → (∀ worker ∈ s.workers, worker.job = none) →
      s.host.system.owned = [] ∧ s.host.system.closed.Perm s.host.system.opened) ∧
    (∀ (r r' : Nat) (file file' : File) (d : Nat), s.host.files[r]? = some file →
      s.host.files[r']? = some file' → file.descriptor = some d → file'.descriptor = some d →
      r = r') ∧
    s.host.idle.Nodup ∧
    ∀ (r : Nat) (file : File), s.host.files[r]? = some file →
      (r ∈ s.host.idle ↔ file.live = false ∧ s.vm ≠ .reserving (some r)) := by
  have hkept := h.kept
  have hsound := hkept.sound
  refine ⟨fun r hr => ?_, fun s' hstep r hr file d hfile hd => ?_, hsound.rows.busy,
    ⟨hsound.owned.history, hsound.owned.nodup, hsound.owned.stray⟩, fun hswept hworkers => ?_,
    fun r r' file file' d hfile hfile' hd hd' => hsound.owned.unique hfile hfile' hd hd',
    hsound.idle.nodup, fun r file hfile => ?_⟩
  · obtain ⟨file, hfile, hlive, hbusy⟩ := hsound.rows.leased hr
    exact ⟨file, hfile, hlive, hbusy, fun d hd => hsound.owned.mem hfile hd⟩
  · have hsound' := (hkept.step hstep).sound
    obtain ⟨file', hfile', hlive, -⟩ := hsound'.rows.leased hr
    have hd' := hkept.stays hstep r file file' d hfile hd hfile' hlive
    exact ⟨hsound'.owned.mem hfile' hd', file', hfile', hd'⟩
  · obtain ⟨hleases, htransit⟩ := hkept.nothing_held hswept hworkers
    rw [hleases, htransit, hswept] at hsound
    exact hsound.closed
  · rw [hsound.idle.mem]
    have htaken : s.vm.taken ≠ some r ↔ s.vm ≠ .reserving (some r) := by
      cases s.vm <;> simp [Vm.taken]
    rw [htaken, hfile]
    simp

/-- A worker reads the file that an earlier job has opened. -/
def readRow : State :=
  ⟨⟨[⟨some 3, 1, true, false⟩], [], false, ⟨[3], [3], [], []⟩⟩, .ready, [3], [],
    [.running ⟨.use 3, some 0⟩], [], 1, 2⟩

theorem reached_readRow : Reached readRow := by
  have hopened : Reached _ := ((((Reached.default.step (.reserve rfl)).step
    (.create rfl (by decide))).step (.open rfl)).step (.start rfl rfl (by decide))).step
    (.started rfl (.inl rfl))
  have hpublished : Reached _ := (hopened.step
    (.callOpen (i := 0) rfl (show 3 ∉ [] by decide))).step (.publish (i := 0) rfl rfl)
  have hcompleted : Reached _ := ((hpublished.step (.finish (i := 0) rfl)).step
    (.complete (i := 0) rfl)).step (.leave (i := 0) rfl)
  have hread : Reached _ := ((((hcompleted.step (.take rfl)).step (.started rfl (.inl rfl))).step
    (.use rfl (show 3 ∈ [3] by decide) rfl)).step (.start rfl rfl (by decide))).step
    (.started rfl (.inl rfl))
  simpa [readRow, State.default, State.setWorker, State.dropReference, Host.setFile,
    Host.jobFinished, System.opens] using hread

/-- The row that is read counts its reader and is not idle, and its descriptor stays open when the
program closes the file. -/
theorem file_table_read : readRow.leases = [0] ∧
    (⟨some 3, 1, true, false⟩ : File).busy = readRow.leases.count 0 ∧ 0 ∉ readRow.host.idle ∧
    3 ∈ ({ readRow with host := readRow.host.close 3, handles := [] } : State).host.system.owned :=
  have htable := file_table reached_readRow
  have hclose : Step readRow { readRow with host := readRow.host.close 3, handles := [] } :=
    .close rfl (by decide)
  ⟨rfl, htable.2.2.1 0 _ rfl,
    fun hidle => absurd ((htable.2.2.2.2.2.2.2 0 _ rfl).mp hidle).1 (by decide),
    (htable.2.1 _ hclose 0 (by decide) _ 3 rfl rfl).1⟩

end Table

end TeamyBend.Runtime.FileTable
