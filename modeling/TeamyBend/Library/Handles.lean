/-
# Tables that give out handles

A table opens things and answers calls on their handles.  Its users name a thing by the number of
its opening, so two tables can be compared whose handles are different values.

`Simulates` relates the states of two tables: what the first can do, the second does with the same
answer, and they stay related; or the second has an allowed fault.  Then whole runs agree, up to the
command where the second one stops.
-/
import Mathlib.Data.List.Basic
import Mathlib.Tactic.Common

namespace TeamyBend.Library.Handles

variable {S S' H H' R Q A E E' : Type}

/-- A table: `S` are its states, `H` its handles, `R` what can be opened, `Q` the calls and `A`
their answers. -/
structure Table (S H R Q A E : Type) where
  start : S
  «open» : S → R → Except E (H × S)
  call : S → H → Q → Except E (A × S)

/-- A command of a user, who names a handle by the number of its opening. -/
inductive Command (R Q : Type) where
  | open (what : R)
  | call (number : Nat) (request : Q)

/-- What a user sees of a command.  There may be no handle of that number. -/
inductive Reply (A : Type) where
  | opened
  | answered (answer : A)
  | unknown
  deriving DecidableEq

namespace Table

/-- One command, in a state and with the handles so far. -/
def step (T : Table S H R Q A E) (s : S) (handles : List H) :
    Command R Q → Except E (Reply A × S × List H)
  | .open what =>
    match T.open s what with
    | .error e => .error e
    | .ok (h, t) => .ok (.opened, t, handles ++ [h])
  | .call number request =>
    match handles[number]? with
    | none => .ok (.unknown, s, handles)
    | some h =>
      match T.call s h request with
      | .error e => .error e
      | .ok (a, t) => .ok (.answered a, t, handles)

/-- The commands of a run from a state on. -/
def runFrom (T : Table S H R Q A E) :
    S → List H → List (Command R Q) → Except E (List (Reply A) × S × List H)
  | s, handles, [] => .ok ([], s, handles)
  | s, handles, c :: cs =>
    match T.step s handles c with
    | .error e => .error e
    | .ok (reply, t, handles) =>
      match T.runFrom t handles cs with
      | .error e => .error e
      | .ok (replies, end_) => .ok (reply :: replies, end_)

/-- A run. -/
def run (T : Table S H R Q A E) (cs : List (Command R Q)) :
    Except E (List (Reply A) × S × List H) :=
  T.runFrom T.start [] cs

end Table

/-- A run stops at a command: those before it are done, with the first of these replies. -/
structure Stops (T : Table S H R Q A E) (s : S) (hs : List H) (cs : List (Command R Q))
    (replies : List (Reply A)) (c : Command R Q) (at_ : S) (e : E) : Prop where
  before : ∃ before after hs₁, cs = before ++ c :: after ∧
    T.runFrom s hs before = .ok (replies.take before.length, at_, hs₁) ∧
    T.step at_ hs₁ c = .error e
  fails : T.runFrom s hs cs = .error e

/-- What the first table can do in related states, the second does alike, or it has a fault that is
allowed for its state and the command. -/
structure Simulates (T : Table S H R Q A E) (T' : Table S' H' R Q A E')
    (allowed : S' → Command R Q → E' → Prop) (rel : S → S' → List H → List H' → Prop) : Prop where
  start : rel T.start T'.start [] []
  length : ∀ {s s' hs hs'}, rel s s' hs hs' → hs.length = hs'.length
  «open» : ∀ {s s' hs hs' what h t}, rel s s' hs hs' → T.open s what = .ok (h, t) →
    (∃ e, T'.open s' what = .error e ∧ allowed s' (.open what) e) ∨
      ∃ h' t', T'.open s' what = .ok (h', t') ∧ rel t t' (hs ++ [h]) (hs' ++ [h'])
  call : ∀ {s s' hs hs' h h' request a t} (n : Nat), rel s s' hs hs' → hs[n]? = some h →
    hs'[n]? = some h' → T.call s h request = .ok (a, t) →
    (∃ e, T'.call s' h' request = .error e ∧ allowed s' (.call n request) e) ∨
      ∃ t', T'.call s' h' request = .ok (a, t') ∧ rel t t' hs hs'

variable {T : Table S H R Q A E} {T' : Table S' H' R Q A E'}
  {allowed : S' → Command R Q → E' → Prop} {rel : S → S' → List H → List H' → Prop}

/-- A run that stops at its first command. -/
theorem Stops.here {s : S} {hs : List H} {c : Command R Q} {cs : List (Command R Q)}
    {replies : List (Reply A)} {e : E} (hstep : T.step s hs c = .error e) :
    Stops T s hs (c :: cs) replies c s e where
  before := ⟨[], cs, hs, rfl, rfl, hstep⟩
  fails := by rw [Table.runFrom, hstep]

/-- A run that stops after its first command. -/
theorem Stops.later {s s₁ t : S} {hs hs₁ : List H} {c c' : Command R Q} {cs : List (Command R Q)}
    {reply : Reply A} {replies : List (Reply A)} {e : E}
    (hstep : T.step s hs c' = .ok (reply, s₁, hs₁)) (h : Stops T s₁ hs₁ cs replies c t e) :
    Stops T s hs (c' :: cs) (reply :: replies) c t e where
  before := by
    obtain ⟨before, after, hs₂, rfl, hrun, hstop⟩ := h.before
    refine ⟨c' :: before, after, hs₂, rfl, ?_, hstop⟩
    simp only [Table.runFrom, hstep, hrun, List.length_cons, List.take_succ_cons]
  fails := by simp only [Table.runFrom, hstep, h.fails]

/-- **One command.** -/
theorem Simulates.step (sim : Simulates T T' allowed rel) {s : S} {s' : S'} {hs : List H}
    {hs' : List H'} (hrel : rel s s' hs hs') (c : Command R Q) {reply : Reply A} {t : S}
    {hs₁ : List H} (hstep : T.step s hs c = .ok (reply, t, hs₁)) :
    (∃ e, T'.step s' hs' c = .error e ∧ allowed s' c e) ∨
      ∃ t' hs₁', T'.step s' hs' c = .ok (reply, t', hs₁') ∧ rel t t' hs₁ hs₁' := by
  cases c with
  | «open» what =>
    simp only [Table.step] at hstep ⊢
    cases hopen : T.open s what with
    | error e =>
      rw [hopen] at hstep
      cases hstep
    | ok p =>
      obtain ⟨h, t₁⟩ := p
      rw [hopen] at hstep
      cases hstep
      rcases sim.open hrel hopen with ⟨e, he, hallowed⟩ | ⟨h', t', hopen', hnext⟩
      · exact .inl ⟨e, by rw [he], hallowed⟩
      · exact .inr ⟨t', _, by rw [hopen'], hnext⟩
  | call n request =>
    have hlength := sim.length hrel
    simp only [Table.step] at hstep ⊢
    cases hh : hs[n]? with
    | none =>
      have hh' : hs'[n]? = none := by
        rw [List.getElem?_eq_none_iff] at hh ⊢
        omega
      rw [hh] at hstep
      cases hstep
      exact .inr ⟨s', hs', by rw [hh'], hrel⟩
    | some h =>
      obtain ⟨h', hh'⟩ : ∃ h', hs'[n]? = some h' := by
        have hlt : n < hs.length := (List.getElem?_eq_some_iff.mp hh).1
        have hlt' : n < hs'.length := hlength ▸ hlt
        exact ⟨_, List.getElem?_eq_getElem hlt'⟩
      rw [hh] at hstep
      rw [hh']
      cases hcall : T.call s h request with
      | error e =>
        simp only [hcall] at hstep
        cases hstep
      | ok p =>
        obtain ⟨a, t₁⟩ := p
        simp only [hcall] at hstep
        cases hstep
        rcases sim.call n hrel hh hh' hcall with ⟨e, he, hallowed⟩ | ⟨t', hcall', hnext⟩
        · exact .inl ⟨e, by simp only [he], hallowed⟩
        · exact .inr ⟨t', hs', by simp only [hcall'], hnext⟩

/-- **Commands from related states**, by induction on the commands. -/
theorem Simulates.runFrom (sim : Simulates T T' allowed rel) (cs : List (Command R Q)) {s : S}
    {s' : S'} {hs : List H} {hs' : List H'} (hrel : rel s s' hs hs') {replies : List (Reply A)}
    {t : S} {hs₁ : List H} (hrun : T.runFrom s hs cs = .ok (replies, t, hs₁)) :
    (∃ c at_ e, Stops T' s' hs' cs replies c at_ e ∧ allowed at_ c e) ∨
      ∃ t' hs₁', T'.runFrom s' hs' cs = .ok (replies, t', hs₁') ∧ rel t t' hs₁ hs₁' := by
  induction cs generalizing s s' hs hs' replies with
  | nil =>
    cases hrun
    exact .inr ⟨s', hs', rfl, hrel⟩
  | cons c cs ih =>
    simp only [Table.runFrom] at hrun
    cases hstep : T.step s hs c with
    | error e =>
      rw [hstep] at hrun
      cases hrun
    | ok p =>
      obtain ⟨reply, t₁, hs₂⟩ := p
      rw [hstep] at hrun
      simp only at hrun
      cases hrest : T.runFrom t₁ hs₂ cs with
      | error e =>
        rw [hrest] at hrun
        cases hrun
      | ok q =>
        obtain ⟨more, t₂, hs₃⟩ := q
        rw [hrest] at hrun
        cases hrun
        rcases sim.step hrel c hstep with ⟨e, he, hallowed⟩ | ⟨t₁', hs₂', hstep', hrel'⟩
        · exact .inl ⟨c, s', e, .here he, hallowed⟩
        · rcases ih hrel' hrest with ⟨c', at_, e, hstops, hallowed⟩ | ⟨t', hs₁', hrun', hend⟩
          · exact .inl ⟨c', at_, e, .later hstep' hstops, hallowed⟩
          · exact .inr ⟨t', hs₁', by simp only [Table.runFrom, hstep', hrun'], hend⟩

/-- **Runs agree**: where the first table can do the commands, the second gives the same replies
and ends in a related state, or it gives the first of these replies and then has an allowed
fault. -/
theorem Simulates.run (sim : Simulates T T' allowed rel) {cs : List (Command R Q)}
    {replies : List (Reply A)} {t : S} {hs : List H} (hrun : T.run cs = .ok (replies, t, hs)) :
    (∃ c at_ e, Stops T' T'.start [] cs replies c at_ e ∧ allowed at_ c e) ∨
      ∃ t' hs', T'.run cs = .ok (replies, t', hs') ∧ rel t t' hs hs' :=
  sim.runFrom cs sim.start hrun

end TeamyBend.Library.Handles
