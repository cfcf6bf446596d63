/-
# Instances of templates

Texts of terms show where they end (`decodes_spell`), so two keys are equal exactly if the
arguments are the same nameless terms.

The parser remembers the instances of a template by their keys and names them by their number, so
two calls get one generated definition exactly if they are the same specialization.
-/
import TeamyBend.Syntax.TemplateKey

namespace TeamyBend.Syntax

open Kernel Library

/-! ## 1. Texts that are read back -/

theorem toList_repr (n : Nat) : n.repr.toList = decimal n := by simp [decimal]

theorem repr_inj {m n : Nat} : m.repr = n.repr ↔ m = n := by
  rw [← String.toList_inj, toList_repr, toList_repr, decimal_inj]

theorem dash_ne_repr (t : String) (n : Nat) : "-" ++ t ≠ n.repr := by
  intro h
  have hlist := congrArg String.toList h
  rw [toList_repr, String.toList_append] at hlist
  have hmem : '-' ∈ decimal n := by simp [← hlist]
  simpa using isDigit_of_mem_decimal hmem

theorem indexText_inj {σ : Nat → Nat} (hσ : σ.Injective) {scope scope' : List Nat}
    {s s' : Scope} (hs : Indexed σ scope s) (hs' : Indexed σ scope' s') (x y : Nat) :
    indexText scope x = indexText scope' y ↔ (s x).toNameless = (s' y).toNameless := by
  unfold indexText
  rcases hs x with ⟨i, hi, hpi⟩ | ⟨hi, hpi⟩ <;> rcases hs' y with ⟨j, hj, hpj⟩ | ⟨hj, hpj⟩
  · simpa [hi, hj, hpi, hpj, Slot.toNameless] using repr_inj.trans hσ.eq_iff
  · simp [hi, hj, hpi, hpj, Slot.toNameless, Ne.symm (dash_ne_repr _ _)]
  · simp [hi, hj, hpi, hpj, Slot.toNameless, dash_ne_repr]
  · simp only [hi, hj, hpi, hpj, Slot.toNameless, Nameless.free.injEq]
    rw [String.append_right_inj]
    exact repr_inj

theorem quantText_inj {q r : Quant} : quantText q = quantText r ↔ q = r := by
  cases q <;> cases r <;> decide

theorem decodes_quant (q r : Quant) :
    Decodes (named (quantText q)) (named (quantText r)) (q = r) :=
  (Decodes.named _ _).congr quantText_inj

/-- A name never begins with the mark of a GPU reference. -/
theorem named_head (name : String) : ∃ a l, named name = a :: l ∧ a ≠ '!' := by
  cases hdigits : decimal name.utf8ByteSize with
  | nil => exact absurd hdigits Nat.toDigits_ne_nil
  | cons d ds =>
    refine ⟨d, ds ++ ':' :: name.toList, by simp [named, hdigits], ?_⟩
    rintro rfl
    have hdigit := isDigit_of_mem_decimal (hdigits ▸ List.mem_cons_self)
    simp at hdigit

/-- The brackets and the letter of a node. -/
theorem decodes_node {w w' : List Char} {P : Prop} (c : Char) (h : Decodes w w' P) :
    Decodes ('(' :: c :: (w ++ [')'])) ('(' :: c :: (w' ++ [')'])) P :=
  (((h.append (Decodes.nil.cons ')')).cons c).cons '(').congr (iff_of_eq (and_true P))

theorem decodes_excluded (ex ex' : List String) :
    Decodes (spellExcluded ex ++ [')']) (spellExcluded ex' ++ [')']) (ex = ex') := by
  have hmark : ∀ names : List String, ∀ name ∈ names,
      ∃ a l, 'x' :: named name = a :: l ∧ a ≠ ')' := fun _ _ _ => ⟨_, _, rfl, by decide⟩
  refine (Decodes.list (hmark ex) (hmark ex') fun a _ b _ => (Decodes.named a b).cons 'x').congr ?_
  rw [List.forall₂_eq_eq_eq]

/-- The texts of two argument lists, with their brackets. -/
theorem decodes_args {scope scope' : List Nat} {s s' : Scope} {args args' : List Term}
    (h : ∀ a ∈ args, ∀ a' ∈ args',
      Decodes (spell scope a) (spell scope' a') (strip s a = strip s' a')) :
    Decodes (spellArgs scope args ++ [']']) (spellArgs scope' args' ++ [']'])
      (args.map (strip s) = args'.map (strip s')) := by
  have hmark : ∀ (sc : List Nat) (ts : List Term), ∀ t ∈ ts,
      ∃ a l, spell sc t = a :: l ∧ a ≠ ']' := by
    intro sc ts t _
    obtain ⟨l, hl⟩ := spell_head sc t
    exact ⟨_, _, hl, by decide⟩
  rw [spellArgs_eq, spellArgs_eq]
  exact Decodes.listMap (hmark scope args) (hmark scope' args') h

theorem map_pair_eq {α β τ υ : Type*} {f : α → τ} {f' : β → τ} {g : α → υ} {g' : β → υ}
    {xs : List α} {ys : List β} :
    (xs.map fun x => (f x, g x)) = (ys.map fun y => (f' y, g' y)) ↔
      xs.map f = ys.map f' ∧ xs.map g = ys.map g' := by
  induction xs generalizing ys with
  | nil => cases ys <;> simp
  | cons x xs ih =>
    cases ys with
    | nil => simp
    | cons y ys =>
      simp only [List.map_cons, List.cons.injEq, Prod.mk.injEq, ih]
      tauto

/-- The texts of the bindings of two `let`s, with the bracket behind them. -/
theorem decodes_bindings {scope scope' : List Nat} {s s' : Scope}
    {bs bs' : List (LetBinding Term)}
    (h : ∀ b ∈ bs, ∀ b' ∈ bs',
      Decodes (spell scope b.value) (spell scope' b'.value)
        (strip s b.value = strip s' b'.value)) :
    Decodes (spellBindings scope bs ++ [']']) (spellBindings scope' bs' ++ [']'])
      (bs.map (·.quant) = bs'.map (·.quant) ∧
        (bs.map fun b => strip s b.value) = bs'.map fun b => strip s' b.value) := by
  rw [spellBindings_eq, spellBindings_eq]
  refine (Decodes.listMap (a := fun b => (b.quant, strip s b.value))
    (b := fun b => (b.quant, strip s' b.value)) ?_ ?_ ?_).congr map_pair_eq
  · exact fun b _ => ⟨_, _, rfl, by decide⟩
  · exact fun b _ => ⟨_, _, rfl, by decide⟩
  · intro b hb b' hb'
    exact (((decodes_quant b.quant b'.quant).append (h b hb b' hb')).cons 'g').congr (by simp)

/-- The texts of terms of two kinds differ in their letter. -/
theorem decodes_of_letter_ne {σ : Nat → Nat} {scope scope' : List Nat} {s s' : Scope}
    (hs : Indexed σ scope s) (hs' : Indexed σ scope' s') {t u : Term}
    (hletter : t.letter ≠ u.letter) :
    Decodes (spell scope t) (spell scope' u) (strip s t = strip s' u) := by
  obtain ⟨l, hl⟩ := spell_head scope t
  obtain ⟨l', hl'⟩ := spell_head scope' u
  rw [hl, hl']
  refine ((Decodes.clash hletter).cons '(').congr ⟨False.elim, fun heq => hletter ?_⟩
  rw [← letter_strip hs.plain t, heq, letter_strip hs'.plain u]

/-- **Texts of terms say which nameless terms they are.** -/
theorem decodes_spell {σ : Nat → Nat} (hσ : σ.Injective) {scope scope' : List Nat} {s s' : Scope}
    (hs : Indexed σ scope s) (hs' : Indexed σ scope' s') {t u : Term} (ht : LetsApart t)
    (hu : LetsApart u) :
    Decodes (spell scope t) (spell scope' u) (strip s t = strip s' u) := by
  induction t, u using pairInduction generalizing σ scope scope' s s' with
  | clash t u hletter => exact decodes_of_letter_ne hs hs' hletter
  | Var n x n' y =>
    have hname := Decodes.named (indexText scope x) (indexText scope' y)
    exact decodes_node 'v' (hname.congr (indexText_inj hσ hs hs' x y))
  | Ref n n' => exact (decodes_node 'r' (Decodes.named n n')).congr (by simp [strip])
  | refGpu n n' =>
    obtain ⟨a, l, hl, ha⟩ := named_head n
    simp only [spell, hl]
    exact (((Decodes.clash ha).cons 'r').cons '(').congr (by simp [strip])
  | gpuRef n n' =>
    obtain ⟨a, l, hl, ha⟩ := named_head n'
    simp only [spell, hl]
    exact (((Decodes.clash (Ne.symm ha)).cons 'r').cons '(').congr (by simp [strip])
  | GpuRef n n' => exact (decodes_node 'r' ((Decodes.named n n').cons '!')).congr (by simp [strip])
  | Typ g g' ih => exact (decodes_node 't' (ih hσ hs hs' ht hu)).congr (by simp [strip])
  | Qnt => exact (decodes_node 'q' Decodes.nil).congr (by simp [strip])
  | Qua q q' => exact (decodes_node 'g' (decodes_quant q q')).congr (by simp [strip])
  | Min a b a' b' iha ihb =>
    have ha := iha hσ hs hs' ht.1 hu.1
    have hb := ihb hσ hs hs' ht.2 hu.2
    exact (decodes_node 'm' (ha.append hb)).congr (by simp [strip])
  | All q n x d b q' n' y d' b' ihd ihb =>
    have hd := ihd hσ hs hs' ht.1 hu.1
    have hb := ihb (under_injective hσ 1) (hs.push x) (hs'.push y) ht.2 hu.2
    exact (decodes_node 'f' (((decodes_quant q q').append hd).append hb)).congr
      (by simp [strip, and_assoc])
  | Lam n x b n' y b' ihb =>
    have hb := ihb (under_injective hσ 1) (hs.push x) (hs'.push y) ht hu
    exact (decodes_node 'l' hb).congr (by simp [strip])
  | App f x f' x' ihf ihx =>
    have hf := ihf hσ hs hs' ht.1 hu.1
    have hx := ihx hσ hs hs' ht.2 hu.2
    exact (decodes_node 'a' (hf.append hx)).congr (by simp [strip])
  | Adt n args ex n' args' ex' ih =>
    simp only [LetsApart, letsApartArgs_iff] at ht hu
    have hargs := decodes_args fun a ha a' ha' => ih a ha a' ha' hσ hs hs' (ht a ha) (hu a' ha')
    have hwhole := ((Decodes.named n n').append (hargs.cons '[')).append (decodes_excluded ex ex')
    exact ((hwhole.cons 'd').cons '(').congr (by simp [strip, and_assoc])
  | Ctr n args n' args' ih =>
    simp only [LetsApart, letsApartArgs_iff] at ht hu
    have hargs := decodes_args fun a ha a' ha' => ih a ha a' ha' hσ hs hs' (ht a ha) (hu a' ha')
    exact (decodes_node 'c' ((Decodes.named n n').append (hargs.cons '['))).congr (by simp [strip])
  | Mat c a f c' a' f' iha ihf =>
    have ha := iha hσ hs hs' ht.1 hu.1
    have hf := ihf hσ hs hs' ht.2 hu.2
    exact (decodes_node 'b' (((Decodes.named c c').append ha).append hf)).congr
      (by simp [strip, and_assoc])
  | Efq => exact (decodes_node 'e' Decodes.nil).congr (by simp [strip])
  | Eql l r ty l' r' ty' ihl ihr iht =>
    have hl := ihl hσ hs hs' ht.1 hu.1
    have hr := ihr hσ hs hs' ht.2.1 hu.2.1
    have hty := iht hσ hs hs' ht.2.2 hu.2.2
    exact (decodes_node '=' ((hl.append hr).append hty)).congr (by simp [strip, and_assoc])
  | Rfl => exact (decodes_node 'p' Decodes.nil).congr (by simp [strip])
  | Rwt e m b e' m' b' ihe ihm ihb =>
    have he := ihe hσ hs hs' ht.1 hu.1
    have hm := ihm hσ hs hs' ht.2.1 hu.2.1
    have hb := ihb hσ hs hs' ht.2.2 hu.2.2
    exact (decodes_node 'w' ((he.append hm).append hb)).congr (by simp [strip, and_assoc])
  | Hole n n' => exact (decodes_node 'h' (Decodes.named n n')).congr (by simp [strip])
  | Ann v ty v' ty' ihv iht =>
    have hv := ihv hσ hs hs' ht.1 hu.1
    have hty := iht hσ hs hs' ht.2 hu.2
    exact (decodes_node 'n' (hv.append hty)).congr (by simp [strip])
  | Let bs t bs' t' ihs iht =>
    simp only [LetsApart, letsApartBindings_iff] at ht hu
    have hvalues := decodes_bindings fun b hb b' hb' =>
      ihs b hb b' hb' hσ hs hs' (ht.2.1 b hb) (hu.2.1 b' hb')
    -- the values say how many binders there are, which the positions in the body depend on
    have hwhole := hvalues.andThen fun hP => by
      have hlen : (bs.map (·.id)).length = (bs'.map (·.id)).length := by
        simpa using congrArg List.length hP.1
      exact iht (under_injective hσ _) (hs.pushAll ht.1) (hlen ▸ hs'.pushAll hu.1) ht.2.2 hu.2.2
    exact (decodes_node 's' (hwhole.cons '[')).congr (by simp [strip, and_assoc])

/-! ## 2. Keys -/

theorem decodes_arguments {args args' : List Term} (hargs : ∀ a ∈ args, LetsApart a)
    (hargs' : ∀ a ∈ args', LetsApart a) :
    '[' :: (spellArgs [] args ++ [']']) = '[' :: (spellArgs [] args' ++ [']']) ↔
      args.map nameless = args'.map nameless := by
  have hid : Function.Injective (id : Nat → Nat) := Function.injective_id
  exact ((decodes_args fun a ha a' ha' => decodes_spell hid (indexed_nil id) (indexed_nil id)
    (hargs a ha) (hargs' a' ha')).cons '[').whole

/-- The text of a key, where no limit is in the way. -/
def keyText (args : List Term) : List Char := '[' :: (spellArgs [] args ++ [']'])

/-- The limits that arguments go beyond: `keyText` is too long, a node is too deep, or there are
too many nodes. -/
def KeyBeyond (args : List Term) : String → Prop :=
  TemplateKey.Beyond {} (keyText args) (argDepths 1 args)

/-- What the whole traversal does. -/
theorem writes_terms (args : List Term) :
    Writes (TemplateKey.terms args [] 0) (keyText args) (argDepths 1 args)
      (∀ a ∈ args, ClosedIn [] a) :=
  TemplateKey.writes_listed
    (TemplateKey.writes_eachTerm fun a _ => TemplateKey.writes_term [] 1 a)

theorem templateKey_some {args : List Term} {key : String}
    (h : templateKey args = .ok (some key)) :
    (∀ a ∈ args, ClosedIn [] a) ∧ key.toList = keyText args ∧
      ∀ message, ¬KeyBeyond args message := by
  unfold templateKey at h
  split at h
  · rename_i k hk
    cases h
    obtain ⟨hclosed, hkey⟩ := (writes_terms args).ok {} k hk
    exact ⟨hclosed, by simpa using hkey.text,
      fun message => hkey.not_beyond ⟨by decide, by decide⟩⟩
  · cases h
  · cases h

theorem templateKey_none {args : List Term} (h : templateKey args = .ok none) :
    ¬∀ a ∈ args, ClosedIn [] a := by
  unfold templateKey at h
  split at h
  · cases h
  · exact (writes_terms args).unbound {} (by assumption)
  · cases h

/-- Arguments are refused at a limit they go beyond. -/
theorem templateKey_error {args : List Term} {message : String}
    (h : templateKey args = .error message) : KeyBeyond args message := by
  unfold templateKey at h
  split at h
  · cases h
  · cases h
  · cases h
    exact (writes_terms args).refused {} message (by assumption)

/-- Equal keys and equal nameless arguments. -/
theorem templateKey_inj {args args' : List Term} {key key' : String}
    (hargs : ∀ a ∈ args, LetsApart a) (hargs' : ∀ a ∈ args', LetsApart a)
    (h : templateKey args = .ok (some key)) (h' : templateKey args' = .ok (some key')) :
    key = key' ↔ args.map nameless = args'.map nameless := by
  rw [← String.toList_inj, (templateKey_some h).2.1, (templateKey_some h').2.1]
  exact decodes_arguments hargs hargs'

/-! ## 3. The instances of the source -/

/-- What `specialize` reads and writes of `struct Templates`: the instances of each template by
their keys, their number, and how many are being parsed. -/
structure Templates where
  declarations : String → List (String × String) := fun _ => []
  instances : Nat := 0
  active : Nat := 0

/-- `MAX_SPECIALIZATIONS`. -/
def maxSpecializations : Nat := 256

/-- `MAX_SPECIALIZATION_DEPTH`. -/
def maxSpecializationDepth : Nat := 16

/-- The name of a generated definition: `format!("{name}~{}", template.instances.len())`. -/
def instanceName (name : String) (count : Nat) : String := name ++ "~" ++ toString count

/-- `specialize` up to the second reading of the template, which `parsed` ends. -/
def specialize (self : Templates) (name : String) (arguments : List Term) :
    Except String (Option String × Templates) :=
  match templateKey arguments with
  | .error message => .error message
  | .ok none => .ok (none, self)
  | .ok (some key) =>
    match (self.declarations name).lookup key with
    | some generated => .ok (some generated, self)
    | none =>
      if self.instances ≥ maxSpecializations ∨ self.active ≥ maxSpecializationDepth then
        .error "template specialization count or nesting budget exhausted"
      else
        let entries := self.declarations name
        let generated := instanceName name entries.length
        .ok (some generated,
          { declarations := Function.update self.declarations name (entries ++ [(key, generated)])
            instances := self.instances + 1
            active := self.active + 1 })

/-- A generated definition has been read. -/
def parsed (self : Templates) : Templates := { self with active := self.active - 1 }

/-- What the parser does with its templates: it asks for an instance, or has read one. -/
inductive TemplateEvent where
  | call (name : String) (arguments : List Term)
  | parsed

/-- A call that got an instance. -/
structure Instance where
  name : String
  arguments : List Term
  generated : String

/-- A run of the parser, with the instances its calls got. -/
def specializations : List TemplateEvent → Templates → Except String (List Instance × Templates)
  | [], self => .ok ([], self)
  | .parsed :: events, self => specializations events (parsed self)
  | .call name arguments :: events, self => do
    let (generated, self) ← specialize self name arguments
    let (log, self) ← specializations events self
    match generated with
    | none => .ok (log, self)
    | some generated => .ok (⟨name, arguments, generated⟩ :: log, self)

/-! ## 4. Instances -/

/-- A generated name says of which template it is, and which instance. -/
theorem instanceName_inj {name name' : String} {m n : Nat} :
    instanceName name m = instanceName name' n ↔ name = name' ∧ m = n := by
  have hno : ∀ k, '~' ∉ (decimal k).reverse := fun k hmem =>
    not_mem_decimal (by decide) k (List.mem_reverse.mp hmem)
  have hlist : ∀ (text : String) (k : Nat), (instanceName text k).toList.reverse =
      (decimal k).reverse ++ ['~'] ++ text.toList.reverse := by
    intro text k
    simp [instanceName, decimal]
  rw [← String.toList_inj, ← List.reverse_inj, hlist, hlist, Decodes.upTo (hno m) (hno n)]
  rw [List.reverse_inj, List.reverse_inj, decimal_inj, String.toList_inj, and_comm]

/-- The instances of a template are named in the order of their generation, each under a key of
its own. -/
structure Templates.Ok (s : Templates) : Prop where
  named : ∀ (name : String) (i : Nat) (entry : String × String),
    (s.declarations name)[i]? = some entry → entry.2 = instanceName name i
  keys : ∀ name, ((s.declarations name).map (·.1)).Nodup

/-- The instance is remembered under the key of its arguments. -/
def Instance.Remembered (r : Instance) (s : Templates) : Prop :=
  ∃ key, templateKey r.arguments = .ok (some key) ∧ (key, r.generated) ∈ s.declarations r.name

/-- No instance is forgotten. -/
def Templates.Grows (s s' : Templates) : Prop :=
  ∀ name, ∀ entry ∈ s.declarations name, entry ∈ s'.declarations name

theorem Instance.Remembered.mono {r : Instance} {s s' : Templates} (h : r.Remembered s)
    (hgrows : s.Grows s') : r.Remembered s' := by
  obtain ⟨key, hkey, hmem⟩ := h
  exact ⟨key, hkey, hgrows _ _ hmem⟩

theorem templates_ok_start : Templates.Ok {} where
  named name i entry h := by simp at h
  keys name := by simp

/-- A new instance of one template. -/
theorem Templates.Ok.insert {s s' : Templates} {name key : String} (h : s.Ok)
    (hnone : (s.declarations name).lookup key = none)
    (hs' : s'.declarations = Function.update s.declarations name
      (s.declarations name ++ [(key, instanceName name (s.declarations name).length)])) :
    s'.Ok where
  named n i entry hi := by
    by_cases hn : n = name
    · subst hn
      rw [hs', Function.update_self] at hi
      rcases Nat.lt_or_ge i (s.declarations n).length with hlt | hge
      · rw [List.getElem?_append_left hlt] at hi
        exact h.named n i entry hi
      · have hlen : i = (s.declarations n).length := by
          have hlt := (List.getElem?_eq_some_iff.mp hi).1
          simp only [List.length_append, List.length_singleton] at hlt
          omega
        subst hlen
        rw [List.getElem?_concat_length, Option.some.injEq] at hi
        rw [← hi]
    · rw [hs', Function.update_of_ne hn] at hi
      exact h.named n i entry hi
  keys n := by
    by_cases hn : n = name
    · subst hn
      rw [hs', Function.update_self, List.map_append, List.nodup_append]
      refine ⟨h.keys n, by simp, ?_⟩
      rintro k hk _ hmem rfl
      obtain ⟨entry, hentry, rfl⟩ := List.mem_map.mp hk
      have hkey : entry.1 = key := by simpa using hmem
      have hne := List.lookup_eq_none_iff.mp hnone entry hentry
      simp [hkey] at hne
    · rw [hs', Function.update_of_ne hn]
      exact h.keys n

/-- **One call**: an instance it answers with is remembered under the key. -/
theorem Templates.Ok.called {s s' : Templates} {name : String} {args : List Term}
    {generated : Option String} (h : s.Ok) (hs : specialize s name args = .ok (generated, s')) :
    s'.Ok ∧ s.Grows s' ∧
      ∀ text, generated = some text → Instance.Remembered ⟨name, args, text⟩ s' := by
  unfold specialize at hs
  split at hs
  · cases hs
  · cases hs
    exact ⟨h, fun _ _ => id, fun _ => nofun⟩
  · rename_i key hkey
    split at hs
    · rename_i found hfound
      cases hs
      refine ⟨h, fun _ _ => id, fun text htext => ⟨key, hkey, ?_⟩⟩
      cases htext
      obtain ⟨l₁, l₂, hl, -⟩ := List.lookup_eq_some_iff.mp hfound
      rw [hl]
      simp
    · rename_i hnone
      split at hs
      · cases hs
      · cases hs
        refine ⟨h.insert hnone rfl, fun n entry hentry => ?_, fun text htext => ⟨key, hkey, ?_⟩⟩
        · by_cases hn : n = name
          · subst hn
            simp [hentry]
          · simpa [Function.update_of_ne hn] using hentry
        · cases htext
          simp

theorem Templates.Ok.ended {s : Templates} (h : s.Ok) : (parsed s).Ok := ⟨h.named, h.keys⟩

/-- **A run of calls**: all instances it got are remembered in the end. -/
theorem Templates.Ok.run {events : List TemplateEvent} {s s' : Templates}
    {log : List Instance} (h : s.Ok) (hrun : specializations events s = .ok (log, s')) :
    s'.Ok ∧ s.Grows s' ∧ ∀ r ∈ log, r.Remembered s' := by
  induction events generalizing s s' log with
  | nil =>
    cases hrun
    exact ⟨h, fun _ _ => id, by simp⟩
  | cons event events ih =>
    cases event with
    | parsed => exact ih (s := parsed s) h.ended hrun
    | call name args =>
      simp only [specializations, bind, Except.bind] at hrun
      cases hcall : specialize s name args with
      | error message => simp [hcall] at hrun
      | ok answer =>
        obtain ⟨generated, m⟩ := answer
        simp only [hcall] at hrun
        obtain ⟨hm, hgrows, hheld⟩ := h.called hcall
        cases hrest : specializations events m with
        | error message => simp [hrest] at hrun
        | ok rest =>
          obtain ⟨log', t⟩ := rest
          simp only [hrest] at hrun
          obtain ⟨ht, hgrows', hlog⟩ := ih hm hrest
          have hall : s.Grows t := fun n entry hentry => hgrows' n entry (hgrows n entry hentry)
          cases generated with
          | none =>
            cases hrun
            exact ⟨ht, hall, hlog⟩
          | some text =>
            cases hrun
            refine ⟨ht, hall, fun r hr => ?_⟩
            rcases List.mem_cons.mp hr with rfl | hr
            · exact (hheld text rfl).mono hgrows'
            · exact hlog r hr

/-- Two remembered instances are one exactly if their templates and their keys are. -/
theorem Instance.Remembered.generated_eq {r r' : Instance} {s : Templates} (h : s.Ok)
    (hr : r.Remembered s) (hr' : r'.Remembered s) (hargs : ∀ a ∈ r.arguments, LetsApart a)
    (hargs' : ∀ a ∈ r'.arguments, LetsApart a) :
    r.generated = r'.generated ↔
      r.name = r'.name ∧ r.arguments.map nameless = r'.arguments.map nameless := by
  obtain ⟨key, hkey, hmem⟩ := hr
  obtain ⟨key', hkey', hmem'⟩ := hr'
  rw [← templateKey_inj hargs hargs' hkey hkey']
  obtain ⟨i, hi⟩ := List.mem_iff_getElem?.mp hmem
  obtain ⟨j, hj⟩ := List.mem_iff_getElem?.mp hmem'
  rw [show r.generated = instanceName r.name i from h.named _ _ _ hi,
    show r'.generated = instanceName r'.name j from h.named _ _ _ hj, instanceName_inj]
  refine and_congr_right fun hname => ?_
  rw [← hname] at hj
  constructor
  · rintro rfl
    rw [hi] at hj
    simp only [Option.some.injEq, Prod.mk.injEq] at hj
    exact hj.1
  · rintro rfl
    have hlt := (List.getElem?_eq_some_iff.mp hi).1
    refine (List.getElem?_inj (by simpa using hlt) (h.keys r.name)).mp ?_
    rw [List.getElem?_map, List.getElem?_map, hi, hj]
    rfl

/-- **Keys of template instances.**  Arguments are refused only at a limit that they go beyond, and
get a key only within the limits.  Where they are not refused, there is no key exactly for arguments
with a free variable, and equal keys are equal nameless arguments.  A run of the parser gives two
calls one generated definition exactly if they are the same specialization. -/
theorem template_keys_identify :
    (∀ (args : List Term) (key : Option String), templateKey args = .ok key →
      (key = none ↔ ∃ a ∈ args, ∃ id, FreeIn id a)) ∧
    (∀ (args : List Term) (message : String), templateKey args = .error message →
      KeyBeyond args message) ∧
    (∀ (args : List Term) (key : String), templateKey args = .ok (some key) →
      key.toList = keyText args ∧ ∀ message, ¬KeyBeyond args message) ∧
    (∀ (args args' : List Term) (key key' : String),
      (∀ a ∈ args, LetsApart a) → (∀ a ∈ args', LetsApart a) →
      templateKey args = .ok (some key) → templateKey args' = .ok (some key') →
      (key = key' ↔ args.map nameless = args'.map nameless)) ∧
    (∀ (events : List TemplateEvent) (log : List Instance) (s : Templates),
      specializations events {} = .ok (log, s) → ∀ r ∈ log, ∀ r' ∈ log,
      (∀ a ∈ r.arguments, LetsApart a) → (∀ a ∈ r'.arguments, LetsApart a) →
      (r.generated = r'.generated ↔
        r.name = r'.name ∧ r.arguments.map nameless = r'.arguments.map nameless)) := by
  refine ⟨fun args key h => ?_, fun args message h => templateKey_error h,
    fun args key h => (templateKey_some h).2,
    fun args args' key key' hargs hargs' h h' => templateKey_inj hargs hargs' h h',
    fun events log s hrun r hr r' hr' hargs hargs' => ?_⟩
  · have hfree : (∃ a ∈ args, ∃ id, FreeIn id a) ↔ ¬∀ a ∈ args, ClosedIn [] a := by
      simp [ClosedIn]
    rw [hfree]
    cases key with
    | none => simpa using templateKey_none h
    | some key => simpa using (templateKey_some h).1
  · obtain ⟨hs, -, hlog⟩ := templates_ok_start.run hrun
    exact (hlog r hr).generated_eq hs (hlog r' hr') hargs hargs'

/-- The identity is closed and within the limits, so it gets a key, and the same one under other
names. -/
theorem template_keys_identify_identity :
    ∃ key, templateKey [.Lam "x" 0 (.Var "x" 0)] = .ok (some key) ∧
      (templateKey [.Lam "y" 5 (.Var "y" 5)] = .ok (some key) →
        [Term.Lam "x" 0 (.Var "x" 0)].map nameless =
          [Term.Lam "y" 5 (.Var "y" 5)].map nameless) := by
  have hclosed : ¬∃ a ∈ [Term.Lam "x" 0 (.Var "x" 0)], ∃ id, FreeIn id a := by
    rintro ⟨_, hmem, id, hfree⟩
    obtain rfl := List.mem_singleton.mp hmem
    cases hfree with
    | lam hne hbody =>
      cases hbody
      exact hne rfl
  cases hkey : templateKey [.Lam "x" 0 (.Var "x" 0)] with
  | error message =>
    cases template_keys_identify.2.1 _ message hkey with
    | long h => exact absurd h (by decide +kernel)
    | deep d hd h =>
      have hdepth : d ∈ [1, 2] := hd
      simp at hdepth
      omega
    | many h => exact absurd h (by decide +kernel)
  | ok key =>
    cases key with
    | none => exact absurd ((template_keys_identify.1 _ none hkey).mp rfl) hclosed
    | some key =>
      exact ⟨key, rfl, fun hkey' => (template_keys_identify.2.2.2.1 _ _ key key
        (by simp [LetsApart]) (by simp [LetsApart]) hkey hkey').mp rfl⟩

/-- `Typ` around a term, a number of times. -/
def tower : Nat → Term
  | 0 => .Qnt
  | n + 1 => .Typ (tower n)

theorem not_freeIn_tower (n id : Nat) : ¬FreeIn id (tower n) := by
  induction n with
  | zero => rintro ⟨⟩
  | succ n ih =>
    intro h
    cases h with
    | typ h => exact ih h

/-- A closed argument may get no key, since the traversal is bounded.  The key takes the last of
two binders with one number, the kernel the first. -/
theorem template_keys_limited :
    (templateKey [tower 130] = .error TemplateKey.tooDeep ∧ ∀ id, ¬FreeIn id (tower 130)) ∧
    templateKey [repeatedLet] = .ok (some "[(s[g1:+(q)g1:+(e)](v1:0))]") ∧
    templateKey [distinctLet] = .ok (some "[(s[g1:+(q)g1:+(e)](v1:0))]") ∧
    nameless repeatedLet ≠ nameless distinctLet := by
  refine ⟨⟨by decide +kernel, not_freeIn_tower 130⟩, by decide +kernel, by decide +kernel, ?_⟩
  simp [nameless_repeatedLet, nameless_distinctLet]

end TeamyBend.Syntax
