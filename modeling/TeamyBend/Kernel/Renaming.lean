/-
# Freshening is renaming

A copy that `freshen` makes is the same nameless term with other binders.  Here the binders are
listed: the run takes them one after the other from the counter, so no number occurs twice among
them, whatever was repeated or shadowed before.

The free variables of a term can be read off its nameless term, so a copy has the same ones, and a
copy of a `let` has values that are copies of the values outside of its binders.
-/
import TeamyBend.Kernel.Book
import TeamyBend.Kernel.Copies
import TeamyBend.Kernel.Substitution
import Mathlib.Data.List.Nodup

namespace TeamyBend.Kernel

/-! ## 1. Binders -/

mutual

/-- The numbers of the binders of a term, as often as they bind. -/
def binders : Term → List Nat
  | .Typ g => binders g
  | .Min a b => binders a ++ binders b
  | .All _ _ id domain body => id :: (binders domain ++ binders body)
  | .Lam _ id body => id :: binders body
  | .App f x => binders f ++ binders x
  | .Adt _ args _ => bindersArgs args
  | .Ctr _ args => bindersArgs args
  | .Mat _ arm fallback => binders arm ++ binders fallback
  | .Eql left right ty => binders left ++ (binders right ++ binders ty)
  | .Rwt evidence motive body => binders evidence ++ (binders motive ++ binders body)
  | .Ann value ty => binders value ++ binders ty
  | .Let bindings body => bindersBindings bindings ++ binders body
  | _ => []

/-- `binders` of an argument list. -/
def bindersArgs : List Term → List Nat
  | [] => []
  | a :: args => binders a ++ bindersArgs args

/-- The binders of a `let` with those of their values. -/
def bindersBindings : List (LetBinding Term) → List Nat
  | [] => []
  | ⟨_, _, id, value⟩ :: bindings => id :: (binders value ++ bindersBindings bindings)

end

attribute [local simp] binders bindersArgs bindersBindings

/-! ## 2. Numbers taken by a run -/

/-- The numbers lie between `lo` and `hi`, and none occurs twice. -/
structure Numbered (lo hi : Nat) (ids : List Nat) : Prop where
  nodup : ids.Nodup
  range : ∀ id ∈ ids, lo ≤ id ∧ id < hi

theorem Numbered.nil {lo hi : Nat} : Numbered lo hi [] := ⟨List.nodup_nil, by simp⟩

/-- Numbers taken later are larger. -/
theorem Numbered.append {lo mid hi : Nat} {ids ids' : List Nat} (h : Numbered lo mid ids)
    (h' : Numbered mid hi ids') (hlo : lo ≤ mid) (hhi : mid ≤ hi) :
    Numbered lo hi (ids ++ ids') where
  nodup := by
    refine List.Nodup.append h.nodup h'.nodup fun id hid hid' => ?_
    have hlt := (h.range id hid).2
    have hge := (h'.range id hid').1
    omega
  range id hid := by
    rcases List.mem_append.mp hid with hid | hid
    · have hrange := h.range id hid
      omega
    · have hrange := h'.range id hid
      omega

/-- The next number, then others. -/
theorem Numbered.cons {lo hi : Nat} {ids : List Nat} (h : Numbered (lo + 1) hi ids)
    (hlt : lo < hi) : Numbered lo hi (lo :: ids) := by
  have hone : Numbered lo (lo + 1) [lo] := ⟨List.nodup_singleton lo, by simp⟩
  exact hone.append h (Nat.le_succ lo) hlt

/-- The binders of the results are the numbers that the runs of the rule take. -/
def Numbers (rule : Term → M Term) : Prop :=
  ∀ e t t' e', Returns (rule t) e t' e' →
    e.freshId ≤ e'.freshId ∧ Numbered e.freshId e'.freshId (binders t')

section Freshen

variable {rule : Term → M Term} (h : Numbers rule)
include h

theorem numbers_mapTerms {e e' : Engine} {args args' : List Term}
    (hrun : Returns (mapTerms rule args) e args' e') :
    e.freshId ≤ e'.freshId ∧ Numbered e.freshId e'.freshId (bindersArgs args') := by
  induction args generalizing e args' with
  | nil =>
    obtain ⟨rfl, rfl⟩ := returns_pure.mp hrun
    exact ⟨Nat.le_refl _, .nil⟩
  | cons a args ih =>
    simp only [mapTerms, returns_bind, returns_pure] at hrun
    obtain ⟨a', e₁, ha, as', e₂, has, rfl, rfl⟩ := hrun
    obtain ⟨h₁, na⟩ := h _ _ _ _ ha
    obtain ⟨h₂, nas⟩ := ih has
    exact ⟨Nat.le_trans h₁ h₂, na.append nas h₁ h₂⟩

theorem numbers_freshenBindings {e e' : Engine} {bs : List (LetBinding Term)} {body : Term}
    {r : List (LetBinding Term) × Term}
    (hrun : Returns (freshenBindings rule bs body) e r e') :
    e.freshId ≤ e'.freshId ∧ Numbered e.freshId e'.freshId (bindersBindings r.1) := by
  induction bs generalizing e body r with
  | nil =>
    obtain ⟨rfl, rfl⟩ := returns_pure.mp hrun
    exact ⟨Nat.le_refl _, .nil⟩
  | cons b bs ih =>
    simp only [freshenBindings, returns_bind, returns_freshId, returns_pure] at hrun
    obtain ⟨x, e₁, ⟨-, rfl, rfl⟩, v, e₂, hv, rest, e₃, hrest, rfl, rfl⟩ := hrun
    obtain ⟨h₁, nv⟩ := h _ _ _ _ hv
    obtain ⟨h₂, nrest⟩ := ih hrest
    have hlt : e.freshId < e₃.freshId := Nat.lt_of_lt_of_le h₁ h₂
    exact ⟨Nat.le_of_lt hlt, (nv.append nrest h₁ h₂).cons hlt⟩

/-- One case a constructor, in the order in which the rule runs on the parts. -/
theorem numbers_freshenInner : Numbers (freshenInner rule) := by
  intro e t t' e' hrun
  cases t with
  | Var | Ref | GpuRef | Qnt | Qua | Efq | Rfl | Hole =>
    obtain ⟨rfl, rfl⟩ := returns_pure.mp hrun
    exact ⟨Nat.le_refl _, .nil⟩
  | Typ g =>
    simp only [freshenInner, returns_bind, returns_pure] at hrun
    obtain ⟨g', e₁, hg, rfl, rfl⟩ := hrun
    obtain ⟨h₁, ng⟩ := h _ _ _ _ hg
    exact ⟨h₁, ng⟩
  | Min a b =>
    simp only [freshenInner, returns_bind, returns_pure] at hrun
    obtain ⟨a', e₁, ha, b', e₂, hb, rfl, rfl⟩ := hrun
    obtain ⟨h₁, na⟩ := h _ _ _ _ ha
    obtain ⟨h₂, nb⟩ := h _ _ _ _ hb
    exact ⟨Nat.le_trans h₁ h₂, na.append nb h₁ h₂⟩
  | App f x =>
    simp only [freshenInner, returns_bind, returns_pure] at hrun
    obtain ⟨f', e₁, hf, x', e₂, hx, rfl, rfl⟩ := hrun
    obtain ⟨h₁, nf⟩ := h _ _ _ _ hf
    obtain ⟨h₂, nx⟩ := h _ _ _ _ hx
    exact ⟨Nat.le_trans h₁ h₂, nf.append nx h₁ h₂⟩
  | Ann v ty =>
    simp only [freshenInner, returns_bind, returns_pure] at hrun
    obtain ⟨v', e₁, hv, ty', e₂, ht, rfl, rfl⟩ := hrun
    obtain ⟨h₁, nv⟩ := h _ _ _ _ hv
    obtain ⟨h₂, nt⟩ := h _ _ _ _ ht
    exact ⟨Nat.le_trans h₁ h₂, nv.append nt h₁ h₂⟩
  | Mat c a f =>
    simp only [freshenInner, returns_bind, returns_pure] at hrun
    obtain ⟨a', e₁, ha, f', e₂, hf, rfl, rfl⟩ := hrun
    obtain ⟨h₁, na⟩ := h _ _ _ _ ha
    obtain ⟨h₂, nf⟩ := h _ _ _ _ hf
    exact ⟨Nat.le_trans h₁ h₂, na.append nf h₁ h₂⟩
  | Eql l r ty =>
    simp only [freshenInner, returns_bind, returns_pure] at hrun
    obtain ⟨l', e₁, hl, r', e₂, hr, ty', e₃, ht, rfl, rfl⟩ := hrun
    obtain ⟨h₁, nl⟩ := h _ _ _ _ hl
    obtain ⟨h₂, nr⟩ := h _ _ _ _ hr
    obtain ⟨h₃, nt⟩ := h _ _ _ _ ht
    exact ⟨Nat.le_trans h₁ (Nat.le_trans h₂ h₃),
      nl.append (nr.append nt h₂ h₃) h₁ (Nat.le_trans h₂ h₃)⟩
  | Rwt v m b =>
    simp only [freshenInner, returns_bind, returns_pure] at hrun
    obtain ⟨v', e₁, hv, m', e₂, hm, b', e₃, hb, rfl, rfl⟩ := hrun
    obtain ⟨h₁, nv⟩ := h _ _ _ _ hv
    obtain ⟨h₂, nm⟩ := h _ _ _ _ hm
    obtain ⟨h₃, nb⟩ := h _ _ _ _ hb
    exact ⟨Nat.le_trans h₁ (Nat.le_trans h₂ h₃),
      nv.append (nm.append nb h₂ h₃) h₁ (Nat.le_trans h₂ h₃)⟩
  | Adt name args excluded =>
    simp only [freshenInner, returns_bind, returns_pure] at hrun
    obtain ⟨args', e₁, ha, rfl, rfl⟩ := hrun
    exact numbers_mapTerms h ha
  | Ctr name args =>
    simp only [freshenInner, returns_bind, returns_pure] at hrun
    obtain ⟨args', e₁, ha, rfl, rfl⟩ := hrun
    exact numbers_mapTerms h ha
  | Lam name id b =>
    simp only [freshenInner, returns_bind, returns_freshId, returns_pure] at hrun
    obtain ⟨x, e₁, ⟨-, rfl, rfl⟩, b', e₂, hb, rfl, rfl⟩ := hrun
    obtain ⟨h₁, nb⟩ := h _ _ _ _ hb
    exact ⟨Nat.le_of_lt h₁, nb.cons h₁⟩
  | All q name id d b =>
    simp only [freshenInner, returns_bind, returns_freshId, returns_pure] at hrun
    obtain ⟨x, e₁, ⟨-, rfl, rfl⟩, d', e₂, hd, b', e₃, hb, rfl, rfl⟩ := hrun
    obtain ⟨h₁, nd⟩ := h _ _ _ _ hd
    obtain ⟨h₂, nb⟩ := h _ _ _ _ hb
    have hlt : e.freshId < e₃.freshId := Nat.lt_of_lt_of_le h₁ h₂
    exact ⟨Nat.le_of_lt hlt, (nd.append nb h₁ h₂).cons hlt⟩
  | Let bs b =>
    simp only [freshenInner, returns_bind, returns_pure] at hrun
    obtain ⟨r, e₁, hr, b', e₂, hb, rfl, rfl⟩ := hrun
    obtain ⟨h₁, nr⟩ := numbers_freshenBindings h hr
    obtain ⟨h₂, nb⟩ := h _ _ _ _ hb
    exact ⟨Nat.le_trans h₁ h₂, nr.append nb h₁ h₂⟩

end Freshen

/-- **The binders of a copy** are the numbers its run took. -/
theorem numbers_freshen (gas : Nat) : Numbers (freshen gas) := by
  induction gas with
  | zero => exact fun _ _ _ _ hrun => (returns_exhausted hrun).elim
  | succ gas ih =>
    intro e t t' e' hrun
    rw [freshen, returns_charged] at hrun
    obtain ⟨-, -, e₁, hinner, rfl⟩ := hrun
    obtain ⟨h₁, numbered⟩ := numbers_freshenInner ih _ _ _ _ hinner
    exact ⟨h₁, numbered⟩

/-! ## 3. Free variables -/

/-- What a variable became stays under the other binders. -/
theorem Scope.push_term {s : Scope} {id x : Nat} {a : Nameless} (hne : id ≠ x)
    (hs : s id = .term a) : s.push x id = .term a := by
  rw [push_of_ne _ hne, hs]
  rfl

theorem Scope.pushAll_term {s : Scope} {id : Nat} {ids : List Nat} {a : Nameless} (hid : id ∉ ids)
    (hs : s id = .term a) : s.pushAll ids id = .term a := by
  induction ids with
  | nil => exact hs
  | cons x ids ih =>
    simp only [List.mem_cons, not_or] at hid
    exact push_term hid.1 (ih hid.2)

/-- Two scopes that tell a free variable apart read the term as two terms. -/
theorem FreeIn.strip_ne {id : Nat} {t : Term} (h : FreeIn id t) {s s' : Scope} {a b : Nameless}
    (hs : s id = .term a) (hs' : s' id = .term b) (hab : a ≠ b) : strip s t ≠ strip s' t := by
  induction h generalizing s s' with
  | var => simpa [strip, hs, hs', Slot.toNameless] using hab
  | codomain hx _ ih | lam hx _ ih =>
    intro heq
    simp only [strip, Nameless.All.injEq, Nameless.Lam.injEq] at heq
    exact ih (Scope.push_term hx hs) (Scope.push_term hx hs') (by simp only [heq])
  | adt ha _ ih | ctr ha _ ih =>
    intro heq
    simp only [strip, stripArgs_eq, Nameless.Adt.injEq, Nameless.Ctr.injEq, true_and, and_true,
      List.map_inj_left] at heq
    exact ih hs hs' (heq _ ha)
  | letValue hb _ ih =>
    intro heq
    simp only [strip, stripBindings_eq, Nameless.Let.injEq, true_and, List.map_inj_left] at heq
    exact ih hs hs' (heq.1 _ hb)
  | @letBody bs _ hb _ ih =>
    intro heq
    simp only [strip, Nameless.Let.injEq] at heq
    have hids : id ∉ bs.map (·.id) := by
      intro hmem
      obtain ⟨c, hc, hid⟩ := List.mem_map.mp hmem
      exact hb c hc hid
    exact ih (Scope.pushAll_term hids hs) (Scope.pushAll_term hids hs') heq.2.2
  | _ =>
    intro heq
    rename_i ih
    refine ih hs hs' ?_
    simp only [strip, Nameless.Typ.injEq, Nameless.Min.injEq, Nameless.All.injEq,
      Nameless.App.injEq, Nameless.Mat.injEq, Nameless.Eql.injEq, Nameless.Rwt.injEq,
      Nameless.Ann.injEq] at heq
    simp only [heq]

/-- **The free variables** can be read off the nameless term. -/
theorem freeIn_congr {t t' : Term} (h : nameless t = nameless t') (id : Nat) :
    FreeIn id t ↔ FreeIn id t' := by
  have hread : ∀ v : Nameless, strip (Scope.free.set id (.term v)) t =
      strip (Scope.free.set id (.term v)) t' := by
    intro v
    rw [← Scope.replace_free, ← replace_strip, ← replace_strip]
    exact congrArg _ h
  have hkeep : ∀ u : Term, ¬FreeIn id u →
      strip (Scope.free.set id (.term .Qnt)) u = strip (Scope.free.set id (.term .Efq)) u := by
    intro u hu
    refine strip_congr fun y hy => ?_
    have hne : y ≠ id := fun heq => hu (heq ▸ hy)
    rw [Scope.set_of_ne _ _ hne, Scope.set_of_ne _ _ hne]
  have hsplit : ∀ u : Term, FreeIn id u →
      strip (Scope.free.set id (.term .Qnt)) u ≠ strip (Scope.free.set id (.term .Efq)) u :=
    fun u hu => hu.strip_ne (Scope.set_self ..) (Scope.set_self ..) (by simp)
  constructor
  · intro hfree
    by_contra hnot
    exact hsplit t hfree (by rw [hread, hread, hkeep t' hnot])
  · intro hfree
    by_contra hnot
    exact hsplit t' hfree (by rw [← hread, ← hread, hkeep t hnot])

/-- A term that reads as a `let` is one, with values that read the same outside of its binders. -/
theorem let_of_nameless {bs : List (LetBinding Term)} {b t' : Term}
    (h : nameless t' = nameless (.Let bs b)) : ∃ bs' b', t' = .Let bs' b' ∧
      bs'.map (fun c => nameless c.value) = bs.map fun c => nameless c.value := by
  cases t' with
  | Let bs' b' =>
    simp only [nameless, strip, stripBindings_eq, Nameless.Let.injEq] at h
    exact ⟨bs', b', rfl, h.2.1⟩
  | _ => simp [nameless, strip, Scope.free, Slot.toNameless] at h

/-! ## 4. Freshening -/

/-- **`freshen` is capture-free renaming.**  The copy of a term with numbers below the counter is
the same nameless term and has the same free variables; its binders are pairwise distinct numbers
that the counter passed during the run; and the values of a `let` are copied outside of its
binders. -/
theorem freshen_renames {gas : Nat} {t t' : Term} {e e' : Engine} (hbelow : Below e.freshId t)
    (hrun : Returns (freshen gas t) e t' e') :
    nameless t' = nameless t ∧ (∀ id, FreeIn id t' ↔ FreeIn id t) ∧ (binders t').Nodup ∧
      (∀ id, id ∈ binders t' → e.freshId ≤ id ∧ id < e'.freshId) ∧
      ∀ bs b, t = .Let bs b → ∃ bs' b', t' = .Let bs' b' ∧
        bs'.map (fun c => nameless c.value) = bs.map fun c => nameless c.value := by
  obtain ⟨-, hcopy⟩ := copies_freshen gas e t t' e' hbelow hrun
  obtain ⟨-, hnumbered⟩ := numbers_freshen gas e t t' e' hrun
  have hname : nameless t' = nameless t := hcopy.strip Scope.free
  refine ⟨hname, freeIn_congr hname, hnumbered.nodup, hnumbered.range, ?_⟩
  rintro bs b rfl
  exact let_of_nameless hname

/-- `λ0. λ0. 0`, whose binders have one number. -/
def shadowed : Term := .Lam "x" 0 (.Lam "x" 0 (.Var "x" 0))

/-- The copy of a shadowed binder. -/
theorem freshen_renames_shadowed :
    ∃ t' e', Returns (freshen 3 shadowed) (Engine.empty .distinct (fun _ => "") 1) t' e' ∧
      nameless t' = nameless shadowed ∧ (binders t').Nodup ∧ ∀ id ∈ binders t', 1 ≤ id := by
  have hresult : (result (freshen 3 shadowed) (Engine.empty .distinct (fun _ => "") 1)).map
      (fun _ => ()) = some () := by decide +kernel
  have hbelow : Below 1 shadowed := by
    intro x hx
    rcases hx with hx | hx
    · simp [shadowed, freeIn_lam] at hx
    · simp [shadowed, boundIn_lam] at hx
      omega
  obtain ⟨t', e', hrun, -⟩ := returns_of_result hresult
  obtain ⟨hname, -, hnodup, hrange, -⟩ := freshen_renames hbelow hrun
  exact ⟨t', e', hrun, hname, hnodup, fun id hid => (hrange id hid).1⟩

end TeamyBend.Kernel
