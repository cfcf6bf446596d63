/-
# Fresh copies

`freshen` gives every binder of a term a new number.  The copy is the same nameless term, has the
same free variables, and its binders have the numbers that the run took, so none of them was in
use before.
-/
import TeamyBend.Kernel.Nameless
import TeamyBend.Kernel.Reduce
import Mathlib.Data.List.Forall2

namespace TeamyBend.Kernel

/-! ## 1. Later engines -/

/-- `e'` looks up what `e` does, and has given out more numbers. -/
structure Engine.Later (e e' : Engine) : Prop where
  defs : e'.defs = e.defs
  adts : e'.adts = e.adts
  aliases : e'.aliases = e.aliases
  freshId : e.freshId ≤ e'.freshId

theorem Engine.Later.refl (e : Engine) : e.Later e := ⟨rfl, rfl, rfl, Nat.le_refl _⟩

theorem Engine.Later.trans {e e₁ e₂ : Engine} (h : e.Later e₁) (h' : e₁.Later e₂) : e.Later e₂ where
  defs := h'.defs.trans h.defs
  adts := h'.adts.trans h.adts
  aliases := h'.aliases.trans h.aliases
  freshId := Nat.le_trans h.freshId h'.freshId

/-- A number is taken. -/
theorem Engine.Later.taken (e : Engine) : e.Later { e with freshId := e.freshId + 1 } :=
  ⟨rfl, rfl, rfl, Nat.le_succ _⟩

/-! ## 2. Copies -/

/-- `t'` is `t` with the numbers of its binders between `lo` and `hi`. -/
structure CopyIn (lo hi : Nat) (t t' : Term) : Prop where
  strip : ∀ s, strip s t' = strip s t
  free : ∀ id, FreeIn id t' → FreeIn id t
  bound : ∀ id, BoundIn id t' → lo ≤ id ∧ id < hi

namespace CopyIn

variable {lo hi : Nat}

theorem mono {lo' hi' : Nat} {t t' : Term} (h : CopyIn lo hi t t') (hlo : lo' ≤ lo)
    (hhi : hi ≤ hi') : CopyIn lo' hi' t t' where
  strip := h.strip
  free := h.free
  bound id hid := by
    obtain ⟨h₁, h₂⟩ := h.bound id hid
    omega

/-- A term without variables is its own copy. -/
theorem self {t : Term} (hbound : ∀ id, ¬BoundIn id t) : CopyIn lo hi t t where
  strip _ := rfl
  free _ h := h
  bound id h := absurd h (hbound id)

theorem typ {g g' : Term} (h : CopyIn lo hi g g') : CopyIn lo hi (.Typ g) (.Typ g') where
  strip s := by simp [Kernel.strip, h.strip s]
  free id hid := by
    cases hid with
    | typ hid => exact .typ (h.free id hid)
  bound id hid := by
    cases hid with
    | typ hid => exact h.bound id hid

theorem min {a a' b b' : Term} (ha : CopyIn lo hi a a') (hb : CopyIn lo hi b b') :
    CopyIn lo hi (.Min a b) (.Min a' b') where
  strip s := by simp [Kernel.strip, ha.strip s, hb.strip s]
  free id hid := by
    cases hid with
    | minL hid => exact .minL (ha.free id hid)
    | minR hid => exact .minR (hb.free id hid)
  bound id hid := by
    cases hid with
    | minL hid => exact ha.bound id hid
    | minR hid => exact hb.bound id hid

theorem app {f f' x x' : Term} (hf : CopyIn lo hi f f') (hx : CopyIn lo hi x x') :
    CopyIn lo hi (.App f x) (.App f' x') where
  strip s := by simp [Kernel.strip, hf.strip s, hx.strip s]
  free id hid := by
    cases hid with
    | fn hid => exact .fn (hf.free id hid)
    | arg hid => exact .arg (hx.free id hid)
  bound id hid := by
    cases hid with
    | fn hid => exact hf.bound id hid
    | arg hid => exact hx.bound id hid

theorem ann {v v' t t' : Term} (hv : CopyIn lo hi v v') (ht : CopyIn lo hi t t') :
    CopyIn lo hi (.Ann v t) (.Ann v' t') where
  strip s := by simp [Kernel.strip, hv.strip s, ht.strip s]
  free id hid := by
    cases hid with
    | value hid => exact .value (hv.free id hid)
    | annTy hid => exact .annTy (ht.free id hid)
  bound id hid := by
    cases hid with
    | value hid => exact hv.bound id hid
    | annTy hid => exact ht.bound id hid

theorem mat {c : String} {a a' f f' : Term} (ha : CopyIn lo hi a a') (hf : CopyIn lo hi f f') :
    CopyIn lo hi (.Mat c a f) (.Mat c a' f') where
  strip s := by simp [Kernel.strip, ha.strip s, hf.strip s]
  free id hid := by
    cases hid with
    | arm hid => exact .arm (ha.free id hid)
    | fallback hid => exact .fallback (hf.free id hid)
  bound id hid := by
    cases hid with
    | arm hid => exact ha.bound id hid
    | fallback hid => exact hf.bound id hid

theorem eql {l l' r r' t t' : Term} (hl : CopyIn lo hi l l') (hr : CopyIn lo hi r r')
    (ht : CopyIn lo hi t t') : CopyIn lo hi (.Eql l r t) (.Eql l' r' t') where
  strip s := by simp [Kernel.strip, hl.strip s, hr.strip s, ht.strip s]
  free id hid := by
    cases hid with
    | left hid => exact .left (hl.free id hid)
    | right hid => exact .right (hr.free id hid)
    | ty hid => exact .ty (ht.free id hid)
  bound id hid := by
    cases hid with
    | left hid => exact hl.bound id hid
    | right hid => exact hr.bound id hid
    | ty hid => exact ht.bound id hid

theorem rwt {e e' m m' b b' : Term} (he : CopyIn lo hi e e') (hm : CopyIn lo hi m m')
    (hb : CopyIn lo hi b b') : CopyIn lo hi (.Rwt e m b) (.Rwt e' m' b') where
  strip s := by simp [Kernel.strip, he.strip s, hm.strip s, hb.strip s]
  free id hid := by
    cases hid with
    | evidence hid => exact .evidence (he.free id hid)
    | motive hid => exact .motive (hm.free id hid)
    | body hid => exact .body (hb.free id hid)
  bound id hid := by
    cases hid with
    | evidence hid => exact he.bound id hid
    | motive hid => exact hm.bound id hid
    | body hid => exact hb.bound id hid

/-- Arguments, one by one. -/
theorem strips {args args' : List Term} (h : List.Forall₂ (CopyIn lo hi) args args') (s : Scope) :
    args'.map (Kernel.strip s) = args.map (Kernel.strip s) := by
  induction h with
  | nil => rfl
  | cons h _ ih => simp [h.strip s, ih]

theorem of_mem {args args' : List Term} (h : List.Forall₂ (CopyIn lo hi) args args') {a' : Term}
    (ha : a' ∈ args') : ∃ a ∈ args, CopyIn lo hi a a' := by
  induction h with
  | nil => cases ha
  | cons h _ ih =>
    rcases List.mem_cons.mp ha with rfl | ha
    · exact ⟨_, List.mem_cons_self .., h⟩
    · obtain ⟨a, hmem, hcopy⟩ := ih ha
      exact ⟨a, List.mem_cons_of_mem _ hmem, hcopy⟩

/-- The copy of a datatype copies its arguments. -/
theorem adt {name : String} {args args' : List Term} {excluded : List String}
    (h : List.Forall₂ (CopyIn lo hi) args args') :
    CopyIn lo hi (.Adt name args excluded) (.Adt name args' excluded) where
  strip s := by simp [Kernel.strip, strips h s]
  free id hid := by
    cases hid with
    | adt ha hid =>
      obtain ⟨a, hmem, hcopy⟩ := of_mem h ha
      exact .adt hmem (hcopy.free id hid)
  bound id hid := by
    cases hid with
    | adt ha hid =>
      obtain ⟨a, -, hcopy⟩ := of_mem h ha
      exact hcopy.bound id hid

/-- The copy of a constructor copies its arguments. -/
theorem ctr {name : String} {args args' : List Term}
    (h : List.Forall₂ (CopyIn lo hi) args args') :
    CopyIn lo hi (.Ctr name args) (.Ctr name args') where
  strip s := by simp [Kernel.strip, strips h s]
  free id hid := by
    cases hid with
    | ctr ha hid =>
      obtain ⟨a, hmem, hcopy⟩ := of_mem h ha
      exact .ctr hmem (hcopy.free id hid)
  bound id hid := by
    cases hid with
    | ctr ha hid =>
      obtain ⟨a, -, hcopy⟩ := of_mem h ha
      exact hcopy.bound id hid

/-- **Under a binder**: the new number is not in use and takes the place of the old one. -/
theorem body {x id : Nat} {name : String} {b b' : Term} (hx : ¬FreeIn x b ∧ ¬BoundIn x b)
    (h : CopyIn lo hi (substitute id (.Var name x) b) b') (s : Scope) :
    Kernel.strip (s.push x) b' = Kernel.strip (s.push id) b := by
  rw [h.strip, strip_rename hx.2]
  refine strip_congr fun y hy => ?_
  by_cases hid : y = id
  · rw [hid, Scope.set_self, Scope.push_self, Scope.push_self]
  · have hyx : y ≠ x := fun heq => hx.1 (heq ▸ hy)
    rw [Scope.set_of_ne _ _ hid, Scope.push_of_ne _ hyx, Scope.push_of_ne _ hid]

theorem body_free {x id y : Nat} {name : String} {b b' : Term}
    (h : CopyIn lo hi (substitute id (.Var name x) b) b') (hy : FreeIn y b') (hne : y ≠ x) :
    FreeIn y b ∧ y ≠ id := by
  rcases (h.free y hy).of_substitute with hfree | hfree
  · exact hfree
  · exact absurd (freeIn_var.mp hfree) hne

theorem lam {x id : Nat} {name : String} {b b' : Term} (hx : ¬FreeIn x b ∧ ¬BoundIn x b)
    (hlo : lo ≤ x) (hhi : x < hi) (h : CopyIn lo hi (substitute id (.Var name x) b) b') :
    CopyIn lo hi (.Lam name id b) (.Lam name x b') where
  strip s := by simp [Kernel.strip, body hx h s]
  free y hy := by
    cases hy with
    | lam hne hy =>
      obtain ⟨hfree, hid⟩ := body_free h hy hne
      exact .lam hid hfree
  bound y hy := by
    cases hy with
    | lam => exact ⟨hlo, hhi⟩
    | lamBody hy => exact h.bound y hy

/-- The copy of a function type renames its binder. -/
theorem all {x id : Nat} {q : Quant} {name : String} {d d' b b' : Term} (hd : CopyIn lo hi d d')
    (hx : ¬FreeIn x b ∧ ¬BoundIn x b) (hlo : lo ≤ x) (hhi : x < hi)
    (h : CopyIn lo hi (substitute id (.Var name x) b) b') :
    CopyIn lo hi (.All q name id d b) (.All q name x d' b') where
  strip s := by simp [Kernel.strip, hd.strip s, body hx h s]
  free y hy := by
    cases hy with
    | domain hy => exact .domain (hd.free y hy)
    | codomain hne hy =>
      obtain ⟨hfree, hid⟩ := body_free h hy hne
      exact .codomain hid hfree
  bound y hy := by
    cases hy with
    | all => exact ⟨hlo, hhi⟩
    | domain hy => exact hd.bound y hy
    | codomain hy => exact h.bound y hy

end CopyIn

/-! ## 3. Renamed bindings -/

/-- The binders of a `let` replaced by new ones, one after the other. -/
def rename : List (LetBinding Term) → List Nat → Term → Term
  | b :: bindings, x :: xs, body => rename bindings xs (substitute b.id (.Var b.name x) body)
  | _, _, body => body

/-- The old binders become what the new ones are. -/
def Scope.rebind (s : Scope) : List Nat → List Nat → Scope
  | id :: ids, x :: xs => (s.rebind ids xs).set id (s x)
  | _, _ => s

theorem Scope.rebind_of_not_mem {s : Scope} {ids xs : List Nat} {y : Nat} (h : y ∉ ids) :
    s.rebind ids xs y = s y := by
  induction ids generalizing xs with
  | nil => cases xs <;> rfl
  | cons id ids ih =>
    cases xs with
    | nil => rfl
    | cons x xs =>
      simp only [List.mem_cons, not_or] at h
      exact (Scope.set_of_ne _ _ h.1).trans (ih h.2)

/-- Under one more binder. -/
theorem Scope.rebind_push {s : Scope} {ids xs : List Nat} {x y : Nat} (hx : x ∉ xs) (hy : y ≠ x) :
    (s.push x).rebind ids xs y = (s.rebind ids xs y).shift := by
  induction ids generalizing xs with
  | nil => cases xs <;> exact Scope.push_of_ne _ hy
  | cons id ids ih =>
    cases xs with
    | nil => exact Scope.push_of_ne _ hy
    | cons z xs =>
      simp only [List.mem_cons, not_or] at hx
      by_cases hid : y = id
      · rw [Scope.rebind, Scope.rebind, hid, Scope.set_self, Scope.set_self,
          Scope.push_of_ne _ (Ne.symm hx.1)]
      · rw [Scope.rebind, Scope.rebind, Scope.set_of_ne _ _ hid, Scope.set_of_ne _ _ hid]
        exact ih hx.2

/-- Under fresh binders a rebound scope is the old one. -/
theorem Scope.rebind_pushAll {s : Scope} {ids xs : List Nat} {y : Nat}
    (hlen : ids.length = xs.length) (hnodup : xs.Nodup) (hy : y ∉ xs) :
    (s.pushAll xs).rebind ids xs y = s.pushAll ids y := by
  induction ids generalizing xs with
  | nil =>
    obtain rfl := List.length_eq_zero_iff.mp hlen.symm
    rfl
  | cons id ids ih =>
    cases xs with
    | nil => simp at hlen
    | cons x xs =>
      obtain ⟨hx, hxs⟩ := List.nodup_cons.mp hnodup
      simp only [List.mem_cons, not_or] at hy
      by_cases hid : y = id
      · rw [Scope.rebind, Scope.pushAll, Scope.pushAll, hid, Scope.set_self, Scope.push_self,
          Scope.push_self]
      · rw [Scope.rebind, Scope.pushAll, Scope.pushAll, Scope.set_of_ne _ _ hid,
          Scope.push_of_ne _ hid, Scope.rebind_push hx hy.1]
        rw [ih (by simpa using hlen) hxs hy.2]

/-- Renaming the binders of a let is rebinding the scope. -/
theorem strip_renamed {bindings : List (LetBinding Term)} {xs : List Nat} {body : Term} {s : Scope}
    (hfresh : ∀ x ∈ xs, ¬BoundIn x body ∧ ∀ b ∈ bindings, b.id ≠ x) :
    strip s (rename bindings xs body) = strip (s.rebind (bindings.map (·.id)) xs) body := by
  induction bindings generalizing xs body with
  | nil => cases xs <;> rfl
  | cons b bindings ih =>
    cases xs with
    | nil => rfl
    | cons x xs =>
      have hrest : ∀ y ∈ xs, ¬BoundIn y (substitute b.id (.Var b.name x) body) ∧
          ∀ c ∈ bindings, c.id ≠ y := by
        intro y hy
        obtain ⟨hbody, hids⟩ := hfresh y (List.mem_cons_of_mem _ hy)
        refine ⟨fun hbound => ?_, fun c hc => hids c (List.mem_cons_of_mem _ hc)⟩
        rcases hbound.of_substitute with hbound | hbound
        · exact hbody hbound
        · exact not_boundIn_var hbound
      obtain ⟨hbody, hids⟩ := hfresh x (List.mem_cons_self ..)
      have hx : x ∉ bindings.map (·.id) := fun hmem => by
        obtain ⟨c, hc, hid⟩ := List.mem_map.mp hmem
        exact hids c (List.mem_cons_of_mem _ hc) hid
      rw [rename, ih hrest, strip_rename hbody, Scope.rebind_of_not_mem hx]
      rfl

/-- What is free after the renaming was free before, and no binder of the let. -/
theorem FreeIn.of_rename {bindings : List (LetBinding Term)} {xs : List Nat} {body : Term} {y : Nat}
    (hlen : bindings.length = xs.length) (h : FreeIn y (rename bindings xs body)) (hy : y ∉ xs) :
    FreeIn y body ∧ ∀ b ∈ bindings, b.id ≠ y := by
  induction bindings generalizing xs body with
  | nil =>
    obtain rfl := List.length_eq_zero_iff.mp hlen.symm
    exact ⟨h, by simp⟩
  | cons b bindings ih =>
    cases xs with
    | nil => simp at hlen
    | cons x xs =>
      simp only [List.mem_cons, not_or] at hy
      obtain ⟨hfree, hids⟩ := ih (by simpa using hlen) h hy.2
      rcases hfree.of_substitute with ⟨hbody, hne⟩ | hvar
      · refine ⟨hbody, fun c hc => ?_⟩
        rcases List.mem_cons.mp hc with rfl | hc
        · exact Ne.symm hne
        · exact hids c hc
      · exact absurd (freeIn_var.mp hvar) hy.1

theorem Below.rename {n : Nat} {bindings : List (LetBinding Term)} {xs : List Nat} {body : Term}
    (h : Below n body) (hxs : ∀ x ∈ xs, x < n) : Below n (rename bindings xs body) := by
  induction bindings generalizing xs body with
  | nil => cases xs <;> exact h
  | cons b bindings ih =>
    cases xs with
    | nil => exact h
    | cons x xs =>
      exact ih (h.substitute (below_var (hxs x (List.mem_cons_self ..))))
        fun y hy => hxs y (List.mem_cons_of_mem _ hy)

/-- A `let` whose binders are new and whose values are copies. -/
theorem CopyIn.bind {lo hi : Nat} {bs bs' : List (LetBinding Term)} {b b' : Term}
    (hquants : bs'.map (·.quant) = bs.map (·.quant))
    (hvalues : List.Forall₂ (CopyIn lo hi) (bs.map (·.value)) (bs'.map (·.value)))
    (hnodup : (bs'.map (·.id)).Nodup) (hrange : ∀ x ∈ bs'.map (·.id), lo ≤ x ∧ x < hi)
    (hfresh : ∀ x ∈ bs'.map (·.id), ¬FreeIn x b ∧ ¬BoundIn x b ∧ ∀ c ∈ bs, c.id ≠ x)
    (h : CopyIn lo hi (rename bs (bs'.map (·.id)) b) b') :
    CopyIn lo hi (.Let bs b) (.Let bs' b') := by
  have hlen : bs.length = (bs'.map (·.id)).length := by
    simpa using (congrArg List.length hquants).symm
  refine ⟨fun s => ?_, fun y hy => ?_, fun y hy => ?_⟩
  · have hbody : Kernel.strip (s.pushAll (bs'.map (·.id))) b' =
        Kernel.strip (s.pushAll (bs.map (·.id))) b := by
      rw [h.strip, strip_renamed fun x hx => (hfresh x hx).2]
      refine strip_congr fun y hy => ?_
      exact Scope.rebind_pushAll (by simpa using hlen) hnodup fun hmem => (hfresh y hmem).1 hy
    have hstrips : bs'.map (fun b => Kernel.strip s b.value) =
        bs.map fun b => Kernel.strip s b.value := by
      simpa [Function.comp_def] using CopyIn.strips hvalues s
    simp only [Kernel.strip, stripBindings_eq, hquants, hstrips, hbody]
  · cases hy with
    | letValue hmem hy =>
      obtain ⟨v, hv, hcopy⟩ := CopyIn.of_mem hvalues (List.mem_map_of_mem hmem)
      obtain ⟨c, hc, rfl⟩ := List.mem_map.mp hv
      exact .letValue hc (hcopy.free y hy)
    | letBody hkeep hy =>
      have hxs : y ∉ bs'.map (·.id) := fun hmem => by
        obtain ⟨c, hc, hid⟩ := List.mem_map.mp hmem
        exact hkeep c hc hid
      obtain ⟨hbody, hids⟩ := (h.free y hy).of_rename hlen hxs
      exact .letBody hids hbody
  · cases hy with
    | letBinder hmem hid => exact hrange y (List.mem_map.mpr ⟨_, hmem, hid⟩)
    | letValue hmem hy =>
      obtain ⟨v, -, hcopy⟩ := CopyIn.of_mem hvalues (List.mem_map_of_mem hmem)
      exact hcopy.bound y hy
    | letBody hy => exact h.bound y hy

/-! ## 4. Freshening -/

/-- Every run of the rule copies its term. -/
def Copies (rule : Term → M Term) : Prop :=
  ∀ e t t' e', Below e.freshId t → Returns (rule t) e t' e' →
    e.Later e' ∧ CopyIn e.freshId e'.freshId t t'

section Freshen

variable {rule : Term → M Term} (h : Copies rule)
include h

/-- A second copy, after the first one. -/
theorem Copies.next {e e₁ e' : Engine} {t t' : Term} (he : e.Later e₁) (ht : Below e.freshId t)
    (hrun : Returns (rule t) e₁ t' e') :
    e.Later e' ∧ e₁.freshId ≤ e'.freshId ∧ CopyIn e.freshId e'.freshId t t' := by
  obtain ⟨hlater, hcopy⟩ := h _ _ _ _ (ht.mono he.freshId) hrun
  exact ⟨he.trans hlater, hlater.freshId, hcopy.mono he.freshId (Nat.le_refl _)⟩

/-- A copy under a binder that took the next number. -/
theorem Copies.binder {e e₁ e' : Engine} {id : Nat} {name : String} {b b' : Term}
    (hb : Below e.freshId b) (he : e.Later e₁) (hlt : e.freshId < e₁.freshId)
    (hrun : Returns (rule (substitute id (.Var name e.freshId) b)) e₁ b' e') :
    (¬FreeIn e.freshId b ∧ ¬BoundIn e.freshId b) ∧ e.Later e' ∧ e₁.freshId ≤ e'.freshId ∧
      CopyIn e.freshId e'.freshId (substitute id (.Var name e.freshId) b) b' := by
  have hbelow : Below e₁.freshId (substitute id (.Var name e.freshId) b) :=
    (hb.mono he.freshId).substitute (below_var hlt)
  obtain ⟨hlater, hcopy⟩ := h _ _ _ _ hbelow hrun
  refine ⟨⟨fun hfree => ?_, fun hbound => ?_⟩, he.trans hlater, hlater.freshId,
    hcopy.mono he.freshId (Nat.le_refl _)⟩
  · exact Nat.lt_irrefl _ (hb _ (.inl hfree))
  · exact Nat.lt_irrefl _ (hb _ (.inr hbound))

/-- A list of terms is copied one by one. -/
theorem copies_mapTerms {e e' : Engine} {args args' : List Term}
    (hargs : ∀ a ∈ args, Below e.freshId a) (hrun : Returns (mapTerms rule args) e args' e') :
    e.Later e' ∧ List.Forall₂ (CopyIn e.freshId e'.freshId) args args' := by
  induction args generalizing e args' with
  | nil =>
    obtain ⟨rfl, rfl⟩ := returns_pure.mp hrun
    exact ⟨.refl e, .nil⟩
  | cons a args ih =>
    simp only [mapTerms, returns_bind, returns_pure] at hrun
    obtain ⟨a', e₁, ha, as', e₂, has, rfl, rfl⟩ := hrun
    obtain ⟨hlater, hcopy⟩ := h _ _ _ _ (hargs a (List.mem_cons_self ..)) ha
    obtain ⟨hlater', hcopies⟩ :=
      ih (fun b hb => (hargs b (List.mem_cons_of_mem _ hb)).mono hlater.freshId) has
    refine ⟨hlater.trans hlater', .cons (hcopy.mono (Nat.le_refl _) hlater'.freshId) ?_⟩
    exact hcopies.imp fun _ _ hc => hc.mono hlater.freshId (Nat.le_refl _)

/-- The binders of a let are renamed in its body. -/
theorem copies_freshenBindings {e e' : Engine} {bs : List (LetBinding Term)} {body : Term}
    {r : List (LetBinding Term) × Term} (hvalues : ∀ b ∈ bs, Below e.freshId b.value)
    (hrun : Returns (freshenBindings rule bs body) e r e') :
    e.Later e' ∧ r.2 = rename bs (r.1.map (·.id)) body ∧
      r.1.map (·.quant) = bs.map (·.quant) ∧ (r.1.map (·.id)).Nodup ∧
      (∀ x ∈ r.1.map (·.id), e.freshId ≤ x ∧ x < e'.freshId) ∧
      List.Forall₂ (CopyIn e.freshId e'.freshId) (bs.map (·.value)) (r.1.map (·.value)) := by
  induction bs generalizing e body r with
  | nil =>
    obtain ⟨rfl, rfl⟩ := returns_pure.mp hrun
    exact ⟨.refl e, rfl, rfl, List.nodup_nil, by simp, .nil⟩
  | cons b bs ih =>
    simp only [freshenBindings, returns_bind, returns_freshId, returns_pure] at hrun
    obtain ⟨x, e₁, ⟨-, rfl, rfl⟩, v, e₂, hv, rest, e₃, hrest, rfl, rfl⟩ := hrun
    obtain ⟨hlater, hnext, hcopy⟩ := h.next (.taken e) (hvalues b (List.mem_cons_self ..)) hv
    replace hnext : e.freshId < e₂.freshId := hnext
    obtain ⟨hlater', hbody, hquants, hnodup, hrange, hcopies⟩ :=
      ih (fun c hc => (hvalues c (List.mem_cons_of_mem _ hc)).mono hlater.freshId) hrest
    have hlast : e₂.freshId ≤ e₃.freshId := hlater'.freshId
    refine ⟨hlater.trans hlater', ?_, ?_, ?_, ?_, ?_⟩
    · exact hbody
    · simp [hquants]
    · refine List.nodup_cons.mpr ⟨fun hmem => ?_, hnodup⟩
      have hle : e₂.freshId ≤ e.freshId := (hrange _ hmem).1
      omega
    · intro y hy
      rcases List.mem_cons.mp hy with rfl | hy
      · show e.freshId ≤ e.freshId ∧ e.freshId < e₃.freshId
        omega
      · have hle := hrange y hy
        omega
    · refine .cons (hcopy.mono (Nat.le_refl _) hlast) ?_
      exact hcopies.imp fun _ _ hc => hc.mono hlater.freshId (Nat.le_refl _)

/-- **Freshening copies**: by cases on the term, each binder is renamed to a fresh one before its
body is freshened. -/
theorem copies_freshenInner : Copies (freshenInner rule) := by
  intro e t t' e' hbelow hrun
  cases t with
  | Var name id =>
    obtain ⟨rfl, rfl⟩ := returns_pure.mp hrun
    exact ⟨.refl e, .self fun _ => not_boundIn_var⟩
  | Ref | GpuRef | Qnt | Qua | Efq | Rfl | Hole =>
    obtain ⟨rfl, rfl⟩ := returns_pure.mp hrun
    exact ⟨.refl e, .self fun _ hid => by cases hid⟩
  | Typ g =>
    simp only [freshenInner, returns_bind, returns_pure] at hrun
    obtain ⟨g', e₁, hg, rfl, rfl⟩ := hrun
    obtain ⟨hlater, hcopy⟩ := h _ _ _ _ (hbelow.part (fun _ => .typ) fun _ => .typ) hg
    exact ⟨hlater, hcopy.typ⟩
  | Min a b =>
    simp only [freshenInner, returns_bind, returns_pure] at hrun
    obtain ⟨a', e₁, ha, b', e₂, hb, rfl, rfl⟩ := hrun
    obtain ⟨h₁, ca⟩ := h _ _ _ _ (hbelow.part (fun _ => .minL) fun _ => .minL) ha
    obtain ⟨h₂, hle, cb⟩ := h.next h₁ (hbelow.part (fun _ => .minR) fun _ => .minR) hb
    exact ⟨h₂, (ca.mono (Nat.le_refl _) hle).min cb⟩
  | App f x =>
    simp only [freshenInner, returns_bind, returns_pure] at hrun
    obtain ⟨f', e₁, hf, x', e₂, hx, rfl, rfl⟩ := hrun
    obtain ⟨h₁, cf⟩ := h _ _ _ _ (hbelow.part (fun _ => .fn) fun _ => .fn) hf
    obtain ⟨h₂, hle, cx⟩ := h.next h₁ (hbelow.part (fun _ => .arg) fun _ => .arg) hx
    exact ⟨h₂, (cf.mono (Nat.le_refl _) hle).app cx⟩
  | Ann v ty =>
    simp only [freshenInner, returns_bind, returns_pure] at hrun
    obtain ⟨v', e₁, hv, ty', e₂, ht, rfl, rfl⟩ := hrun
    obtain ⟨h₁, cv⟩ := h _ _ _ _ (hbelow.part (fun _ => .value) fun _ => .value) hv
    obtain ⟨h₂, hle, ct⟩ := h.next h₁ (hbelow.part (fun _ => .annTy) fun _ => .annTy) ht
    exact ⟨h₂, (cv.mono (Nat.le_refl _) hle).ann ct⟩
  | Mat c a f =>
    simp only [freshenInner, returns_bind, returns_pure] at hrun
    obtain ⟨a', e₁, ha, f', e₂, hf, rfl, rfl⟩ := hrun
    obtain ⟨h₁, ca⟩ := h _ _ _ _ (hbelow.part (fun _ => .arm) fun _ => .arm) ha
    obtain ⟨h₂, hle, cf⟩ := h.next h₁ (hbelow.part (fun _ => .fallback) fun _ => .fallback) hf
    exact ⟨h₂, (ca.mono (Nat.le_refl _) hle).mat cf⟩
  | Eql l r ty =>
    simp only [freshenInner, returns_bind, returns_pure] at hrun
    obtain ⟨l', e₁, hl, r', e₂, hr, ty', e₃, ht, rfl, rfl⟩ := hrun
    obtain ⟨h₁, cl⟩ := h _ _ _ _ (hbelow.part (fun _ => .left) fun _ => .left) hl
    obtain ⟨h₂, hle, cr⟩ := h.next h₁ (hbelow.part (fun _ => .right) fun _ => .right) hr
    obtain ⟨h₃, hle', ct⟩ := h.next h₂ (hbelow.part (fun _ => .ty) fun _ => .ty) ht
    exact ⟨h₃, (cl.mono (Nat.le_refl _) (Nat.le_trans hle hle')).eql
      (cr.mono (Nat.le_refl _) hle') ct⟩
  | Rwt v m b =>
    simp only [freshenInner, returns_bind, returns_pure] at hrun
    obtain ⟨v', e₁, hv, m', e₂, hm, b', e₃, hb, rfl, rfl⟩ := hrun
    obtain ⟨h₁, cv⟩ := h _ _ _ _ (hbelow.part (fun _ => .evidence) fun _ => .evidence) hv
    obtain ⟨h₂, hle, cm⟩ := h.next h₁ (hbelow.part (fun _ => .motive) fun _ => .motive) hm
    obtain ⟨h₃, hle', cb⟩ := h.next h₂ (hbelow.part (fun _ => .body) fun _ => .body) hb
    exact ⟨h₃, (cv.mono (Nat.le_refl _) (Nat.le_trans hle hle')).rwt
      (cm.mono (Nat.le_refl _) hle') cb⟩
  | Adt name args excluded =>
    simp only [freshenInner, returns_bind, returns_pure] at hrun
    obtain ⟨args', e₁, ha, rfl, rfl⟩ := hrun
    obtain ⟨hlater, hcopies⟩ := copies_mapTerms h
      (fun a hmem => hbelow.part (fun _ => .adt hmem) fun _ => .adt hmem) ha
    exact ⟨hlater, .adt hcopies⟩
  | Ctr name args =>
    simp only [freshenInner, returns_bind, returns_pure] at hrun
    obtain ⟨args', e₁, ha, rfl, rfl⟩ := hrun
    obtain ⟨hlater, hcopies⟩ := copies_mapTerms h
      (fun a hmem => hbelow.part (fun _ => .ctr hmem) fun _ => .ctr hmem) ha
    exact ⟨hlater, .ctr hcopies⟩
  | Lam name id b =>
    simp only [freshenInner, returns_bind, returns_freshId, returns_pure] at hrun
    obtain ⟨x, e₁, ⟨-, rfl, rfl⟩, b', e₂, hb, rfl, rfl⟩ := hrun
    obtain ⟨hunused, hlater, hlt, hcopy⟩ := h.binder hbelow.lam (.taken e) (Nat.lt_succ_self _) hb
    exact ⟨hlater, hcopy.lam hunused (Nat.le_refl _) hlt⟩
  | All q name id d b =>
    simp only [freshenInner, returns_bind, returns_freshId, returns_pure] at hrun
    obtain ⟨x, e₁, ⟨-, rfl, rfl⟩, d', e₂, hd, b', e₃, hb, rfl, rfl⟩ := hrun
    obtain ⟨h₁, hlt, cd⟩ :=
      h.next (.taken e) (hbelow.part (fun _ => .domain) fun _ => .domain) hd
    replace hlt : e.freshId < e₂.freshId := hlt
    obtain ⟨hunused, hlater, hle, hcopy⟩ := h.binder hbelow.codomain h₁ hlt hb
    refine ⟨hlater, (cd.mono (Nat.le_refl _) hle).all hunused (Nat.le_refl _) ?_ hcopy⟩
    exact Nat.lt_of_lt_of_le hlt hle
  | Let bs b =>
    simp only [freshenInner, returns_bind, returns_pure] at hrun
    obtain ⟨r, e₁, hr, b', e₂, hb, rfl, rfl⟩ := hrun
    obtain ⟨h₁, hbody, hquants, hnodup, hrange, hvalues⟩ := copies_freshenBindings h
      (fun c hc => hbelow.part (fun _ => .letValue hc) fun _ => .letValue hc) hr
    rw [hbody] at hb
    have hbelow₁ : Below e₁.freshId (rename bs (r.1.map (·.id)) b) :=
      (hbelow.letBody.mono h₁.freshId).rename fun x hx => (hrange x hx).2
    obtain ⟨h₂, hcopy⟩ := h _ _ _ _ hbelow₁ hb
    have hle : e₁.freshId ≤ e₂.freshId := h₂.freshId
    refine ⟨h₁.trans h₂, .bind hquants ?_ hnodup (fun x hx => ?_) (fun x hx => ?_)
      (hcopy.mono h₁.freshId (Nat.le_refl _))⟩
    · exact hvalues.imp fun _ _ hc => hc.mono (Nat.le_refl _) hle
    · have hx := hrange x hx
      omega
    · have hge := (hrange x hx).1
      refine ⟨fun hfree => ?_, fun hbound => ?_, fun c hc hid => ?_⟩
      · exact Nat.not_lt.mpr hge (hbelow.letBody x (.inl hfree))
      · exact Nat.not_lt.mpr hge (hbelow.letBody x (.inr hbound))
      · exact Nat.not_lt.mpr hge (hbelow x (.inr (.letBinder hc hid)))

end Freshen

/-- **`freshen` copies.** -/
theorem copies_freshen (gas : Nat) : Copies (freshen gas) := by
  induction gas with
  | zero => exact fun _ _ _ _ _ hrun => (returns_exhausted hrun).elim
  | succ gas ih =>
    intro e t t' e' hbelow hrun
    rw [freshen, returns_charged] at hrun
    obtain ⟨-, -, e₁, hinner, rfl⟩ := hrun
    obtain ⟨hlater, hcopy⟩ := copies_freshenInner ih _ _ _ _ (by exact hbelow) hinner
    exact ⟨⟨hlater.defs, hlater.adts, hlater.aliases, hlater.freshId⟩, hcopy⟩

end TeamyBend.Kernel
